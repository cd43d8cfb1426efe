import Chronoxide.Head.Publication

/-! Runs of a head with live coverage. From the moment tracking is enabled, the recorded samples are
divided among the windows of the head and everything that left it, and the coverage of each of these
describes its share. -/

namespace Chronoxide
open Codec Ownership Multiset List

/-- Completed windows go back to the head by their place among the windows that left it. -/
inductive TrackedOp
  | head (op : HeadOp)
  | retainCompletedWindowForPublication (index : Nat)

/-- A window that the head does not take back is dropped. -/
structure TrackedRun (K : HeadCodecs) where
  head : HeadBuffer K
  log : List RecordedSample
  windows : List (HeadWindow K)
  dropped : List (HeadWindow K)
  fragments : List (FrozenHeadFragment K)

section
variable {K : HeadCodecs}

def HeadOp.recorded (accepted : List Sample) : HeadOp → List RecordedSample
  | .recordSampleWithCoverage _ _ _ contribution _ => HeadBuffer.recordedLog accepted contribution
  | _ => []

def TrackedRun.step (run : TrackedRun K) : TrackedOp → TrackedRun K
  | .head op =>
    let out := op.perform run.head
    ⟨out.head, run.log ++ op.recorded out.accepted, run.windows ++ out.windows, run.dropped,
      run.fragments ++ out.fragments⟩
  | .retainCompletedWindowForPublication index =>
    match run.windows[index]? with
    | none => run
    | some w =>
      match run.head.retainCompletedWindowForPublication w with
      | (.ok (), head) => { run with head, windows := run.windows.eraseIdx index }
      | (.error _, head) =>
        { run with head, windows := run.windows.eraseIdx index, dropped := w :: run.dropped }

def HeadBuffer.trackedRun (head : HeadBuffer K) (ops : List TrackedOp) : TrackedRun K :=
  ops.foldl TrackedRun.step ⟨head, [], [], [], []⟩

def TrackedRun.owners (run : TrackedRun K) : List TrackedContents :=
  trackedOf run.head.windows ++ (trackedOf run.windows ++ (trackedOf run.dropped ++
    run.fragments.map FrozenHeadFragment.tracked))

namespace HeadBuffer

variable {durationMs : UInt64} {head head' : HeadBuffer K}

structure Sequenced (head head' : HeadBuffer K) (fragments : List (FrozenHeadFragment K)) :
    Prop where
  sequences : fragments.map (·.publicationSequence) =
    range' head.nextFragmentSequence fragments.length
  next : head'.nextFragmentSequence = head.nextFragmentSequence + fragments.length

theorem SameCounters.sequenced (h : head.SameCounters head') : head.Sequenced head' [] :=
  ⟨rfl, h.sequence_eq⟩

theorem Frozen.sequenced {fragments : List (FrozenHeadFragment K)}
    (h : head.Frozen head' fragments) : head.Sequenced head' fragments :=
  ⟨h.sequences, h.next⟩

variable (head)

theorem retireKindGuards_counters (startMs endMs : UInt64) (lane : FrozenHeadLane)
    : head.SameCounters (head.retireKindGuards startMs endMs lane).2 := by
  unfold retireKindGuards
  split
  · exact ⟨rfl, rfl⟩
  split <;> exact ⟨rfl, rfl⟩

theorem enableLiveCoverageTracking_sequence :
    head.enableLiveCoverageTracking.2.nextFragmentSequence = head.nextFragmentSequence := by
  unfold enableLiveCoverageTracking
  split
  · rfl
  split <;> rfl

theorem perform_sequenced (op : HeadOp) :
    head.Sequenced (op.perform head).head (op.perform head).fragments := by
  obtain ⟨durationMs, hduration⟩ := head.exists_duration
  cases op with
  | recordSample series timestampMs value faults =>
    exact (recordSample_records hduration ..).counters.sequenced
  | recordSampleWithCoverage series timestampMs value contribution faults =>
    exact (recordSampleWithCoverage_records hduration ..).counters.sequenced
  | recordSamples series samples faults =>
    exact (recordSamples_records hduration ..).counters.sequenced
  | drain => exact SameCounters.sequenced ⟨rfl, rfl⟩
  | drainWindows => exact SameCounters.sequenced ⟨rfl, rfl⟩
  | takeOutOfOrderWindow startMs endMs =>
    exact (head.takeOutOfOrderWindow_leaves startMs endMs).counters.sequenced
  | tryFreezeForPublication faults => exact (head.tryFreezeForPublication_frozen faults).1.sequenced
  | enableLiveCoverageTracking => exact ⟨rfl, head.enableLiveCoverageTracking_sequence⟩
  | retireKindGuards startMs endMs lane =>
    exact (head.retireKindGuards_counters startMs endMs lane).sequenced

variable {head}

structure SequencedFrom (first : Nat) (head : HeadBuffer K)
    (fragments : List (FrozenHeadFragment K)) : Prop where
  sequences : fragments.map (·.publicationSequence) = range' first fragments.length
  next : head.nextFragmentSequence = first + fragments.length

theorem SequencedFrom.append {first : Nat} {fragments later : List (FrozenHeadFragment K)}
    (h : SequencedFrom first head fragments) (h' : head.Sequenced head' later) :
    SequencedFrom first head' (fragments ++ later) where
  sequences := by
    rw [map_append, length_append, ← range'_append_1, h.sequences, h'.sequences, h.next]
  next := by
    rw [h'.next, h.next, length_append]
    omega

theorem SequencedFrom.pairwise {first : Nat} {fragments : List (FrozenHeadFragment K)}
    (h : SequencedFrom first head fragments) :
    fragments.Pairwise (·.publicationSequence < ·.publicationSequence) := by
  have hrange : (range' first fragments.length).Pairwise (· < ·) := pairwise_lt_range'
  rw [← h.sequences] at hrange
  exact pairwise_map.mp hrange

theorem run_sequenced (head : HeadBuffer K) (ops : List HeadOp) :
    SequencedFrom head.nextFragmentSequence (head.run ops).head (head.run ops).fragments := by
  suffices hsteps : ∀ (ops : List HeadOp) (run : HeadRun K),
      SequencedFrom head.nextFragmentSequence run.head run.fragments →
      SequencedFrom head.nextFragmentSequence (ops.foldl HeadRun.step run).head
        (ops.foldl HeadRun.step run).fragments by
    exact hsteps ops ⟨head, [], [], []⟩ ⟨rfl, rfl⟩
  intro ops
  induction ops with
  | nil => exact fun _ hrun => hrun
  | cons op ops ih =>
    intro run hrun
    exact ih (run.step op) (hrun.append (run.head.perform_sequenced op))

theorem retainCompletedWindowForPublication_cases (head : HeadBuffer K) (w : HeadWindow K) :
    head.retainCompletedWindowForPublication w =
        (.ok (), (head.retain [w]).clearSelectorIndexCache) ∨
      ∃ error, head.retainCompletedWindowForPublication w = (.error error, head) := by
  unfold retainCompletedWindowForPublication
  split_ifs <;> simp

theorem recordSamplesOwned_untracked (htracked : head.liveCoverageTracking = true)
    (series : SeriesRef) (samples : List OwnedSample) :
    head.recordSamplesOwned false series samples =
      ((.error (invalidInput "untracked sample supplied to a live-coverage head"), head), []) := by
  rw [recordSamplesOwned, htracked, if_pos (by decide), if_neg (by decide)]

theorem enableLiveCoverageTracking_tracked (htracked : head.liveCoverageTracking = true) :
    head.enableLiveCoverageTracking.2 = head := by
  rw [enableLiveCoverageTracking, if_pos htracked]

structure Shares (head : HeadBuffer K) (out : HeadRun K) (log : List RecordedSample) : Prop where
  hands : head.Hands out.head
    (trackedOf out.windows ++ out.fragments.map FrozenHeadFragment.tracked) log
  tracked : out.head.liveCoverageTracking = true

theorem Hands.shares {windows : List (HeadWindow K)} {accepted : List Sample}
    {log : List RecordedSample} (h : head.Hands head' (trackedOf windows) log)
    (htracked : head'.liveCoverageTracking = true) :
    head.Shares ⟨head', accepted, windows, []⟩ log := by
  refine ⟨?_, htracked⟩
  rw [map_nil, append_nil]
  exact h

theorem perform_shares (h : head.Inv durationMs) (hbounded : head.Bounded)
    (htracked : head.liveCoverageTracking = true) (op : HeadOp) :
    head.Shares (op.perform head) (op.recorded (op.perform head).accepted) := by
  have hnothing : head.Shares ⟨head, [], [], []⟩ [] :=
    Hands.shares (hands_of_slots_eq rfl) htracked
  cases op with
  | recordSample series timestampMs value faults =>
    have hout : HeadOp.perform head (.recordSample series timestampMs value faults) =
        ⟨head, [], [], []⟩ := by
      simp only [HeadOp.perform, recordSample, recordSampleWithOutcome,
        recordSamplesOwned_untracked htracked]
      rfl
    rw [hout]
    exact hnothing
  | recordSampleWithCoverage series timestampMs value contribution faults =>
    have hrecords := recordSampleWithCoverage_records h.duration series timestampMs value contribution
      faults
    have hhands := hrecords.hands h hbounded fun x hx => by rw [List.mem_singleton.mp hx]
    exact hhands.shares (hrecords.counters.tracking_eq.trans htracked)
  | recordSamples series samples faults =>
    have hout : HeadOp.perform head (.recordSamples series samples faults) =
        ⟨head, [], [], []⟩ := by
      simp only [HeadOp.perform, recordSamples, recordSamplesOwned_untracked htracked]
      rfl
    rw [hout]
    exact hnothing
  | drain => exact head.drain_leaves.hands.shares htracked
  | drainWindows => exact head.drainWindows_leaves.hands.shares htracked
  | takeOutOfOrderWindow startMs endMs =>
    have hleaves := head.takeOutOfOrderWindow_leaves startMs endMs
    exact hleaves.hands.shares (hleaves.counters.tracking_eq.trans htracked)
  | tryFreezeForPublication faults =>
    have hfrozen := (head.tryFreezeForPublication_frozen faults).1
    exact ⟨hfrozen.hands, hfrozen.tracking_eq.trans htracked⟩
  | enableLiveCoverageTracking =>
    have hout : HeadOp.perform head .enableLiveCoverageTracking = ⟨head, [], [], []⟩ := by
      rw [HeadOp.perform, enableLiveCoverageTracking_tracked htracked]
    rw [hout]
    exact hnothing
  | retireKindGuards startMs endMs lane =>
    exact Hands.shares (head.retireKindGuards_same startMs endMs lane).1.hands
      ((head.retireKindGuards_counters startMs endMs lane).tracking_eq.trans htracked)

end HeadBuffer

/-- The state of a tracked run: `first` is the sequence it started with. -/
structure TrackedRun.Accounted (durationMs : UInt64) (first : Nat) (run : TrackedRun K) : Prop where
  inv : run.head.Inv durationMs
  bounded : run.head.Bounded
  tracked : run.head.liveCoverageTracking = true
  windows_sound : ∀ w ∈ run.windows, w.Sound durationMs
  sequenced : HeadBuffer.SequencedFrom first run.head run.fragments
  owns : Owns TrackedContents.Describes run.owners run.log

namespace TrackedRun.Accounted

variable {durationMs : UInt64} {first : Nat} {run : TrackedRun K}

section
variable (h : run.Accounted durationMs first)
include h

theorem head_step (op : HeadOp) : (run.step (.head op)).Accounted durationMs first := by
  have hconserves := perform_conserves h.inv h.bounded op
  obtain ⟨hhands, htracked⟩ := HeadBuffer.perform_shares h.inv h.bounded h.tracked op
  refine ⟨hconserves.inv, hconserves.bounded, htracked, ?_,
    h.sequenced.append (run.head.perform_sequenced op), ?_⟩
  · exact forall_mem_append.mpr ⟨h.windows_sound, hconserves.windows_sound⟩
  have howns := hhands _ _ h.owns
  have hlog : ((run.step (.head op)).log : Multiset RecordedSample) =
      (op.recorded (op.perform run.head).accepted : Multiset RecordedSample) + run.log := by
    rw [step, ← coe_add, add_comm]
  rw [hlog]
  refine howns.perm ?_
  rw [owners, ← coe_eq_coe]
  simp only [step, HeadBuffer.trackedOf_append, map_append, ← coe_add]
  abel

theorem retain_step (index : Nat) :
    (run.step (.retainCompletedWindowForPublication index)).Accounted durationMs first := by
  simp only [step]
  split
  · exact h
  rename_i w hw
  obtain ⟨hindex, hget⟩ := List.getElem?_eq_some_iff.mp hw
  have hsound : ∀ w' ∈ run.windows.eraseIdx index, w'.Sound durationMs :=
    fun w' hw' => h.windows_sound w' (List.mem_of_mem_eraseIdx hw')
  have hperm : run.windows.Perm (w :: run.windows.eraseIdx index) := by
    rw [← hget]
    exact (List.getElem_cons_eraseIdx_perm hindex).symm
  have hmoved : Owns TrackedContents.Describes (w.tracked :: (trackedOf run.head.windows ++
      (trackedOf (run.windows.eraseIdx index) ++ (trackedOf run.dropped ++
        run.fragments.map FrozenHeadFragment.tracked)))) run.log := by
    refine h.owns.perm ?_
    have htracked := hperm.map HeadWindow.tracked
    rw [← coe_eq_coe] at htracked
    rw [owners, ← coe_eq_coe]
    simp only [trackedOf, ← coe_add, List.map_cons, ← cons_coe, ← singleton_add] at htracked ⊢
    rw [htracked]
    abel
  have hdropped : ({ run with windows := run.windows.eraseIdx index, dropped := w :: run.dropped } :
      TrackedRun K).Accounted durationMs first := by
    refine ⟨h.inv, h.bounded, h.tracked, hsound, h.sequenced, hmoved.perm ?_⟩
    rw [owners, ← coe_eq_coe]
    simp only [trackedOf, ← coe_add, List.map_cons, ← cons_coe, ← singleton_add]
    abel
  rcases run.head.retainCompletedWindowForPublication_cases w with hresult | ⟨error, hresult⟩
  · rw [hresult]
    refine ⟨⟨h.inv.duration, ?_, h.inv.active, h.inv.late⟩, h.bounded, h.tracked,
      hsound, ⟨h.sequenced.sequences, h.sequenced.next⟩, hmoved.perm ?_⟩
    · exact List.forall_mem_append.mpr
        ⟨h.inv.retained, List.forall_mem_singleton.mpr (h.windows_sound w (List.mem_of_getElem? hw))⟩
    rw [owners, ← coe_eq_coe]
    simp only [HeadBuffer.retain, HeadBuffer.clearSelectorIndexCache, HeadBuffer.windows, trackedOf,
      List.map_append, List.map_cons, List.map_nil, ← coe_add, ← cons_coe, ← singleton_add, coe_nil]
    abel
  · rw [hresult]
    exact hdropped

theorem steps (ops : List TrackedOp) : (ops.foldl step run).Accounted durationMs first := by
  induction ops generalizing run with
  | nil => exact h
  | cons op ops ih =>
    cases op with
    | head op => exact ih (h.head_step op)
    | retainCompletedWindowForPublication index => exact ih (h.retain_step index)

end

end TrackedRun.Accounted

namespace HeadBuffer

variable {head head' : HeadBuffer K}

theorem enableLiveCoverageTracking_accounted (huntracked : head.liveCoverageTracking = false)
    (henabled : head.enableLiveCoverageTracking = (.ok (), head')) :
    ∃ durationMs, ∀ ops, (head'.trackedRun ops).Accounted durationMs head.nextFragmentSequence := by
  unfold enableLiveCoverageTracking at henabled
  rw [if_neg (by simp [huntracked])] at henabled
  split at henabled
  · cases henabled
  rename_i hempty
  obtain ⟨-, rfl⟩ := Prod.mk.inj henabled
  simp only [isEmpty, Bool.not_eq_true', Bool.not_eq_false, Bool.and_eq_true,
    Option.isNone_iff_eq_none, List.isEmpty_iff] at hempty
  obtain ⟨⟨⟨hwindow, hlate⟩, hretained⟩, -⟩ := hempty
  obtain ⟨durationMs, hduration⟩ := head.exists_duration
  refine ⟨durationMs, fun ops => TrackedRun.Accounted.steps ?_ ops⟩
  have hwindows : head.windows = [] := by
    rw [windows, hwindow, hlate, hretained]
    rfl
  refine ⟨⟨hduration, ?_, ?_, ?_⟩, ?_, rfl, fun _ hw => (by cases hw), ⟨rfl, rfl⟩, ?_⟩
  · simp [hretained]
  · simp [hwindow]
  · simp [hlate]
  · simp [Bounded, hwindow]
  · change Owns _ (trackedOf head.windows ++ []) 0
    rw [hwindows]
    exact owns_nil

/-- Freezing for publication is a lossless cut. In every run of a tracked head, whatever allocation
fails, windows and fragments share the samples and their coverage between them, the sequences
increase and the last timestamps stay. -/
theorem tryFreezeForPublication_lossless (start : HeadBuffer K) {tracked : HeadBuffer K}
    (before : List HeadOp)
    (huntracked : (start.run before).head.liveCoverageTracking = false)
    (henabled : (start.run before).head.enableLiveCoverageTracking = (.ok (), tracked))
    (ops : List TrackedOp) (faults : PublicationFaults) :
    let run := tracked.trackedRun ops
    let head' := (run.head.tryFreezeForPublication faults).1.2
    let fragments := (run.head.tryFreezeForPublication faults).2
    head'.held + fragmentSamplesOf fragments = run.head.held ∧
      ((start.run before).fragments ++ run.fragments ++ fragments).Pairwise
        (·.publicationSequence < ·.publicationSequence) ∧
      Owns TrackedContents.Describes
        { run with head := head', fragments := run.fragments ++ fragments }.owners run.log ∧
      head'.lastTimestamps = run.head.lastTimestamps ∧
      Cut run.head.windows head'.windows fragments
        ((run.head.tryFreezeForPublication faults).1.1 = .ok ()) := by
  intro run head' fragments
  obtain ⟨durationMs, haccounted⟩ := enableLiveCoverageTracking_accounted huntracked henabled
  have hrun : run.Accounted durationMs _ := haccounted ops
  have hstep := hrun.head_step (.tryFreezeForPublication faults)
  have hconserves := Published.conserves hrun.inv hrun.bounded
    (run.head.tryFreezeForPublication_published faults)
  obtain ⟨hfrozen, hcut⟩ := run.head.tryFreezeForPublication_frozen faults
  refine ⟨?_, ?_, ?_, hfrozen.last_eq, hcut⟩
  · have hheld := hconserves.held_eq
    rw [samplesOf_nil, add_zero, coe_nil, zero_add] at hheld
    exact hheld
  · have hbefore := start.run_sequenced before
    have hlater : (start.run before).head.Sequenced head' (run.fragments ++ fragments) :=
      ⟨hstep.sequenced.sequences, hstep.sequenced.next⟩
    rw [append_assoc]
    exact (hbefore.append hlater).pairwise
  · have howns := hstep.owns
    simp only [TrackedRun.owners, TrackedRun.step, HeadOp.recorded, HeadOp.perform,
      append_nil] at howns
    exact howns

def publishedHead : HeadBuffer (headCodecs fun _ => floatRawCodec) where
  config := ⟨10, 9, .gorilla, .deltaZigZag, .schema, 100, true⟩
  window := none
  oooWindows := []
  retainedWindows := []
  lastTimestamps := []
  selectorIndex := none
  kindGuards := none
  nextFragmentSequence := 1
  liveCoverageTracking := false
  valid := rfl

def lateFails (late : Option IoError) : PublicationFaults :=
  ⟨none, fun _ => ⟨none, fun _ => none, none⟩, ⟨none, fun _ => none, none⟩,
    fun _ => ⟨late, fun _ => none, none⟩⟩

def publishedOps : List TrackedOp :=
  [.head (.recordSampleWithCoverage ⟨1⟩ 2 (.float ⟨1⟩) ⟨⟨0, 0⟩, .ofNat 5⟩ ⟨none, fun _ => none⟩),
    .head (.tryFreezeForPublication (lateFails none)),
    .head (.recordSampleWithCoverage ⟨1⟩ 4 (.float ⟨2⟩) ⟨⟨0, 1⟩, .ofNat 7⟩ ⟨none, fun _ => none⟩),
    .head (.recordSampleWithCoverage ⟨1⟩ 12 (.float ⟨3⟩) ⟨⟨0, 2⟩, .ofNat 1⟩ ⟨none, fun _ => none⟩),
    .retainCompletedWindowForPublication 0,
    .head (.recordSampleWithCoverage ⟨1⟩ 5 (.float ⟨4⟩) ⟨⟨1, 0⟩, .ofNat 2⟩ ⟨none, fun _ => none⟩)]

/-- Two windows are frozen and the late one, which fails, stays with its sample; the sequences go on
where the first publication stopped. -/
theorem tryFreezeForPublication_lossless_partial :
    let run := { publishedHead with liveCoverageTracking := true }.trackedRun publishedOps
    let outcome := run.head.tryFreezeForPublication (lateFails (some (invalidData "arena")))
    outcome.1.1.isOk = false ∧ run.log.length = 4 ∧
      (run.fragments ++ outcome.2).map (·.publicationSequence) = [1, 2, 3] ∧
      (outcome.1.2.windows.filter HeadWindow.hasSamples).map HeadWindow.samples =
        [[⟨⟨1⟩, 5, .float ⟨4⟩⟩]] ∧
      outcome.1.2.held + fragmentSamplesOf outcome.2 = run.head.held ∧
      Cut run.head.windows outcome.1.2.windows outcome.2 (outcome.1.1 = .ok ()) := by
  intro run outcome
  obtain ⟨hheld, -, -, -, hcut⟩ := tryFreezeForPublication_lossless publishedHead [] rfl rfl
    publishedOps (lateFails (some (invalidData "arena")))
  exact ⟨by decide +kernel, by decide +kernel, by decide +kernel, by decide +kernel, hheld, hcut⟩

end HeadBuffer

end

end Chronoxide
