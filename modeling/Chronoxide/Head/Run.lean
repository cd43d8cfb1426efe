import Chronoxide.Head.Conservation
import Chronoxide.Head.Codecs

/-! Runs of a head: any sequence of recordings, drains and publications, with everything that the
calls return. -/

namespace Chronoxide
open Codec HeadBuffer List

structure Holding (K : HeadCodecs) where
  startMs : UInt64
  endMs : UInt64
  outOfOrder : Bool
  datapoints : Nat
  series : SeriesTable K

section
variable {K : HeadCodecs}

def HeadWindow.holding (w : HeadWindow K) : Holding K :=
  ⟨w.startMs, w.endMs, w.outOfOrder, w.datapoints, w.series⟩

def FrozenHeadFragment.holding (fragment : FrozenHeadFragment K) : Holding K :=
  ⟨fragment.startMs, fragment.endMs, fragment.lane.isOutOfOrder, fragment.datapoints,
    fragment.runs.map fun run => (run.series, run.encoded)⟩

/-- An aligned range around its samples, ordered by time in the in-order lane, and counted. -/
structure Holding.Sound (durationMs : UInt64) (holding : Holding K) : Prop where
  aligned : AlignedRange durationMs holding.startMs holding.endMs
  inRange : ∀ sample ∈ holding.series.samples,
    InRange holding.startMs holding.endMs sample.timestampMs
  in_order : holding.outOfOrder = false →
    ∀ e ∈ holding.series, e.2.entries.Pairwise (·.1 ≤ ·.1)
  counted : holding.datapoints =
    min (holding.series.map fun e => e.2.sampleCount).sum (counterMax 64)

variable {durationMs : UInt64} {w : HeadWindow K}

theorem HeadWindow.Sound.holding (h : w.Sound durationMs) : w.holding.Sound durationMs where
  aligned := h.aligned
  inRange := h.inRange
  in_order hlane e he := by
    have hentries := h.in_order hlane e.1
    rw [HeadWindow.entriesOf, KeyedList.lookup_of_mem h.wf.nodup he] at hentries
    exact hentries
  counted := h.wf.datapoints_eq_sum

theorem Holding.Sound.perm {holding : Holding K} (h : holding.Sound durationMs)
    {series : SeriesTable K} (hperm : series.Perm holding.series) :
    ({ holding with series } : Holding K).Sound durationMs where
  aligned := h.aligned
  inRange sample hsample := by
    obtain ⟨e, he, hseries⟩ := SeriesTable.mem_samples.mp hsample
    exact h.inRange sample (SeriesTable.mem_samples.mpr ⟨e, hperm.mem_iff.mp he, hseries⟩)
  in_order hlane e he := h.in_order hlane e (hperm.mem_iff.mp he)
  counted := by
    rw [(hperm.map _).sum_eq]
    exact h.counted

theorem HeadWindow.Sound.toFragment (h : w.Sound durationMs) :
    w.toFragment.holding.Sound durationMs := by
  have hlane : w.toFragment.lane.isOutOfOrder = w.outOfOrder := by
    simp only [HeadWindow.toFragment, HeadWindow.lane]
    cases w.outOfOrder <;> rfl
  have hsound := h.holding.perm w.toFragment_runs_perm
  unfold FrozenHeadFragment.holding
  rw [hlane]
  exact hsound

def fragmentSamplesOf (fragments : List (FrozenHeadFragment K)) : Multiset Sample :=
  (fragments.map fun fragment => (fragment.samples : Multiset Sample)).sum

@[simp] theorem fragmentSamplesOf_nil :
    fragmentSamplesOf ([] : List (FrozenHeadFragment K)) = 0 := rfl

@[simp] theorem fragmentSamplesOf_cons (fragment : FrozenHeadFragment K)
    (fragments : List (FrozenHeadFragment K)) :
    fragmentSamplesOf (fragment :: fragments) = fragment.samples + fragmentSamplesOf fragments := by
  simp [fragmentSamplesOf]

@[simp] theorem fragmentSamplesOf_append (front back : List (FrozenHeadFragment K)) :
    fragmentSamplesOf (front ++ back) = fragmentSamplesOf front + fragmentSamplesOf back := by
  simp [fragmentSamplesOf]

theorem samplesOf_filter {slots : List (Slot K)} {stays : Slot K → Bool}
    (h : ∀ e ∈ slots, stays e = false → e.2.hasSamples = false) :
    samplesOf ((slots.filter stays).map Prod.snd) = samplesOf (slots.map Prod.snd) := by
  induction slots with
  | nil => rfl
  | cons e slots ih =>
    have hrest := ih fun e' he' => h e' (mem_cons_of_mem _ he')
    rw [filter_cons]
    split
    · rw [map_cons, map_cons, samplesOf_cons, samplesOf_cons, hrest]
    rename_i hgoes
    have hnone := h e mem_cons_self (Bool.not_eq_true _ ▸ hgoes)
    have hempty : e.2.series = [] := by
      by_contra hne
      simp [HeadWindow.hasSamples, hne] at hnone
    have hsamples : e.2.samples = [] := by
      rw [HeadWindow.samples, hempty]
      rfl
    rw [hrest, map_cons, samplesOf_cons, hsamples, Multiset.coe_nil, zero_add]

end

/-- What a call leaves in the head and returns is what was there and what it accepted. -/
structure Conserves {K : HeadCodecs} (durationMs : UInt64) (head : HeadBuffer K)
    (accepted : List Sample) (head' : HeadBuffer K) (windows : List (HeadWindow K))
    (fragments : List (FrozenHeadFragment K)) : Prop where
  inv : head'.Inv durationMs
  bounded : head'.Bounded
  windows_sound : ∀ w ∈ windows, w.Sound durationMs
  fragments_sound : ∀ fragment ∈ fragments, fragment.holding.Sound durationMs
  held_eq : head'.held + samplesOf windows + fragmentSamplesOf fragments = accepted + head.held

section
variable {K : HeadCodecs} {durationMs : UInt64} {head head₁ head₂ : HeadBuffer K}

theorem Conserves.trans {accepted₁ accepted₂ : List Sample} {windows₁ windows₂ : List (HeadWindow K)}
    {fragments₁ fragments₂ : List (FrozenHeadFragment K)}
    (h₁ : Conserves durationMs head accepted₁ head₁ windows₁ fragments₁)
    (h₂ : Conserves durationMs head₁ accepted₂ head₂ windows₂ fragments₂) :
    Conserves durationMs head (accepted₁ ++ accepted₂) head₂ (windows₁ ++ windows₂)
      (fragments₁ ++ fragments₂) where
  inv := h₂.inv
  bounded := h₂.bounded
  windows_sound := forall_mem_append.mpr ⟨h₁.windows_sound, h₂.windows_sound⟩
  fragments_sound := forall_mem_append.mpr ⟨h₁.fragments_sound, h₂.fragments_sound⟩
  held_eq := by
    rw [samplesOf_append, fragmentSamplesOf_append, ← Multiset.coe_add]
    calc head₂.held + (samplesOf windows₁ + samplesOf windows₂) +
          (fragmentSamplesOf fragments₁ + fragmentSamplesOf fragments₂)
        = (head₂.held + samplesOf windows₂ + fragmentSamplesOf fragments₂) +
            (samplesOf windows₁ + fragmentSamplesOf fragments₁) := by abel
      _ = accepted₂ + (head₁.held + samplesOf windows₁ + fragmentSamplesOf fragments₁) := by
          rw [h₂.held_eq]
          abel
      _ = accepted₁ + accepted₂ + head.held := by
          rw [h₁.held_eq]
          abel

theorem Freezes.samples_eq {κ : Type} {sequence : Nat} {before after : List (κ × HeadWindow K)}
    {fragments : List (FrozenHeadFragment K)} {error : Option IoError}
    (h : HeadBuffer.Freezes sequence before after fragments error) :
    samplesOf (after.map Prod.snd) + fragmentSamplesOf fragments =
      samplesOf (before.map Prod.snd) := by
  induction h with
  | done => rfl
  | stopped => exact add_zero _
  | empty _ _ _ ih => simp only [map_cons, samplesOf_cons, add_assoc, ih]
  | @frozen _ _ _ _ _ w sealed _ _ hsealed _ ih =>
    have htail : w.emptyTailLike.samples = [] := rfl
    have hsamples : (sealed.toFragment.samples : Multiset Sample) = w.samples := by
      rw [← hsealed.samples_eq]
      exact Multiset.coe_eq_coe.mpr sealed.toFragment_samples
    simp only [map_cons, samplesOf_cons, fragmentSamplesOf_cons, htail, Multiset.coe_nil,
      zero_add, ← ih, ← hsamples]
    exact add_left_comm ..
  | failed _ _ _ _ hrestored =>
    simp [samplesOf_cons, fragmentSamplesOf_nil, hrestored.samples_eq]

variable (h : head.Inv durationMs) (hbounded : head.Bounded)
include h hbounded

theorem Conserves.of_same (hsame : head.SameWindows head₁)
    (hlast : head₁.lastTimestamps = head.lastTimestamps) :
    Conserves durationMs head [] head₁ [] [] where
  inv := hsame.inv h
  bounded w hw s hs := by
    rw [hlast]
    exact hbounded w (hsame.window_eq ▸ hw) s hs
  windows_sound _ hw := by cases hw
  fragments_sound _ hf := by cases hf
  held_eq := by simp [hsame.held_eq]

theorem Published.conserves {fragments : List (FrozenHeadFragment K)} {ok : Prop}
    (hpublished : head.Published head₁ fragments ok) :
    Conserves durationMs head [] head₁ [] fragments := by
  obtain ⟨slots, error, stays, hfreezes, -, hstays, hslots⟩ := hpublished.freezes
  have hok : ∀ e ∈ head₁.slots, HeadBuffer.SlotOk durationMs head₁.lastTimestamps e := by
    intro e' he'
    rw [hslots] at he'
    obtain ⟨e, he, hplace, hrel⟩ := exists_mem_of_forall₂ hfreezes.forall₂
      (mem_of_mem_filter he')
    have hold := h.slotOk hbounded e he
    rw [hpublished.last_eq]
    obtain ⟨place, w'⟩ := e'
    obtain rfl : place = e.1 := hplace
    rcases hrel with hrestored | rfl
    · refine ⟨hold.sound.kept hrestored.toKept, hold.fits.refill hrestored.toSameSlot, ?_⟩
      exact fun hactive s hs => hold.bounded hactive s (hrestored.samples_eq ▸ hs)
    · exact ⟨HeadWindow.sound_new hold.sound.aligned .., hold.fits.refill ⟨rfl, rfl, rfl⟩,
        fun _ _ hs => by cases hs⟩
  obtain ⟨hinv, hbounded'⟩ := inv_of_slotOk
    (hpublished.config_eq ▸ h.duration) hok
  refine ⟨hinv, hbounded', nofun, fun fragment hf => ?_, ?_⟩
  · obtain ⟨e, he, sealed, hsealed, hfragment⟩ := hfreezes.mem_fragments hf
    rw [hfragment]
    exact ((h.slotOk hbounded e he).sound.kept hsealed.toKept).toFragment
  have hgone : samplesOf (head₁.slots.map Prod.snd) = samplesOf (slots.map Prod.snd) := by
    rw [hslots]
    exact samplesOf_filter fun e _ hgoes => hstays e hgoes
  rw [held_slots, held_slots, hgone, samplesOf_nil, add_zero,
    Freezes.samples_eq hfreezes, Multiset.coe_nil, zero_add]

theorem Records.conserves {tracked : Bool} {series : SeriesRef} {batch : List OwnedSample}
    {accepted : List Sample} {windows : List (HeadWindow K)}
    (hrecords : HeadBuffer.Records tracked durationMs series batch head head₁ accepted windows) :
    Conserves durationMs head accepted head₁ windows [] := by
  obtain ⟨head₂, flushed, hrecording, retained, rfl, hperm⟩ := hrecords
  have hconserved := hrecording.conserved h hbounded
  have hsound := forall_mem_append.mpr ⟨hconserved.inv.retained, hconserved.flushed_sound⟩
  obtain ⟨hretained, hwindows⟩ :=
    forall_mem_append.mp fun w hw => hsound w (hperm.mem_iff.mp hw)
  refine ⟨⟨hconserved.inv.duration, hretained, hconserved.inv.active, hconserved.inv.late⟩,
    hconserved.bounded, hwindows, nofun, ?_⟩
  have hsamples := samplesOf_perm hperm
  rw [samplesOf_append, samplesOf_append] at hsamples
  rw [← hconserved.held_eq, held_eq, held_eq]
  calc samplesOf retained + samplesOf head₂.window.toList +
        samplesOf (head₂.oooWindows.map Prod.snd) + samplesOf windows +
        fragmentSamplesOf ([] : List (FrozenHeadFragment K))
      = samplesOf retained + samplesOf windows + (samplesOf head₂.window.toList +
          samplesOf (head₂.oooWindows.map Prod.snd) + fragmentSamplesOf []) := by abel
    _ = _ := by
      rw [hsamples, fragmentSamplesOf_nil]
      abel

theorem Leaves.conserves {out : List (HeadWindow K)} (hleaves : head.Leaves head₁ out) :
    Conserves durationMs head [] head₁ out [] := by
  obtain ⟨gone, windows, hperm, hgone, hout⟩ := hleaves.slots_perm
  have hok := h.slotOk hbounded
  obtain ⟨hinv, hbounded'⟩ := @inv_of_slotOk _ head₁ durationMs
    (hleaves.tables.config_eq ▸ h.duration) fun e he => by
      rw [hleaves.tables.last_eq]
      exact hok e (hperm.mem_iff.mpr (mem_append_right _ he))
  refine ⟨hinv, hbounded', fun w hw => ?_, nofun, ?_⟩
  · obtain ⟨w₀, hw₀, hrestored⟩ := exists_mem_of_forall₂ hgone (hout.mem_iff.mpr hw)
    obtain ⟨e, he, rfl⟩ := mem_map.mp hw₀
    exact (hok e (hperm.mem_iff.mpr (mem_append_left _ he))).sound.kept hrestored.toKept
  · rw [held_slots, held_slots, samplesOf_perm (hperm.map Prod.snd), map_append, samplesOf_append,
      ← samplesOf_perm hout, samplesOf_restored hgone, fragmentSamplesOf_nil, Multiset.coe_nil]
    abel

end

inductive HeadOp
  | recordSample (series : SeriesRef) (timestampMs : UInt64) (value : SampleValue)
      (faults : HeadWindow.SampleFaults)
  | recordSampleWithCoverage (series : SeriesRef) (timestampMs : UInt64) (value : SampleValue)
      (contribution : RecordedSampleContribution) (faults : HeadWindow.SampleFaults)
  | recordSamples (series : SeriesRef) (samples : SampleSlice)
      (faults : Nat → HeadWindow.SampleFaults)
  | drain
  | drainWindows
  | takeOutOfOrderWindow (startMs endMs : UInt64)
  | tryFreezeForPublication (faults : HeadBuffer.PublicationFaults)
  | enableLiveCoverageTracking
  | retireKindGuards (startMs endMs : UInt64) (lane : FrozenHeadLane)

structure HeadRun (K : HeadCodecs) where
  head : HeadBuffer K
  accepted : List Sample
  windows : List (HeadWindow K)
  fragments : List (FrozenHeadFragment K)

section
variable {K : HeadCodecs}

def HeadOp.perform (head : HeadBuffer K) : HeadOp → HeadRun K
  | .recordSample series timestampMs value faults =>
    let ((result, head), accepted) := head.recordSample series timestampMs value faults
    ⟨head, accepted, returnedWindows Option.toList result, []⟩
  | .recordSampleWithCoverage series timestampMs value contribution faults =>
    let ((result, head), accepted) :=
      head.recordSampleWithCoverage series timestampMs value contribution faults
    ⟨head, accepted, returnedWindows (·.completedWindow.toList) result, []⟩
  | .recordSamples series samples faults =>
    let ((result, head), accepted) := head.recordSamples series samples faults
    ⟨head, accepted, returnedWindows id result, []⟩
  | .drain =>
    let (window, head) := head.drain
    ⟨head, [], window.toList, []⟩
  | .drainWindows =>
    let (windows, head) := head.drainWindows
    ⟨head, [], windows, []⟩
  | .takeOutOfOrderWindow startMs endMs =>
    let (window, head) := head.takeOutOfOrderWindow startMs endMs
    ⟨head, [], window.toList, []⟩
  | .tryFreezeForPublication faults =>
    let ((_, head), fragments) := head.tryFreezeForPublication faults
    ⟨head, [], [], fragments⟩
  | .enableLiveCoverageTracking => ⟨head.enableLiveCoverageTracking.2, [], [], []⟩
  | .retireKindGuards startMs endMs lane => ⟨(head.retireKindGuards startMs endMs lane).2, [], [], []⟩

def HeadRun.step (run : HeadRun K) (op : HeadOp) : HeadRun K :=
  let out := op.perform run.head
  ⟨out.head, run.accepted ++ out.accepted, run.windows ++ out.windows,
    run.fragments ++ out.fragments⟩

def HeadBuffer.run (head : HeadBuffer K) (ops : List HeadOp) : HeadRun K :=
  ops.foldl HeadRun.step ⟨head, [], [], []⟩

def HeadRun.holdings (run : HeadRun K) : List (Holding K) :=
  (run.head.windows ++ run.windows).map HeadWindow.holding ++
    run.fragments.map FrozenHeadFragment.holding

variable {durationMs : UInt64} {head : HeadBuffer K}

theorem HeadBuffer.enableLiveCoverageTracking_same (head : HeadBuffer K) :
    head.SameWindows head.enableLiveCoverageTracking.2 ∧
      head.enableLiveCoverageTracking.2.lastTimestamps = head.lastTimestamps := by
  unfold enableLiveCoverageTracking
  split
  · exact ⟨⟨rfl, rfl, rfl, rfl⟩, rfl⟩
  split <;> exact ⟨⟨rfl, rfl, rfl, rfl⟩, rfl⟩

theorem HeadBuffer.retireKindGuards_same (head : HeadBuffer K) (startMs endMs : UInt64)
    (lane : FrozenHeadLane) :
    head.SameWindows (head.retireKindGuards startMs endMs lane).2 ∧
      (head.retireKindGuards startMs endMs lane).2.lastTimestamps = head.lastTimestamps := by
  unfold retireKindGuards
  split
  · exact ⟨⟨rfl, rfl, rfl, rfl⟩, rfl⟩
  split <;> exact ⟨⟨rfl, rfl, rfl, rfl⟩, rfl⟩

theorem perform_conserves (h : head.Inv durationMs) (hbounded : head.Bounded) (op : HeadOp) :
    Conserves durationMs head (op.perform head).accepted (op.perform head).head
      (op.perform head).windows (op.perform head).fragments := by
  cases op with
  | recordSample series timestampMs value faults =>
    exact Records.conserves h hbounded (recordSample_records h.duration ..)
  | recordSampleWithCoverage series timestampMs value contribution faults =>
    exact Records.conserves h hbounded (recordSampleWithCoverage_records h.duration ..)
  | recordSamples series samples faults =>
    exact Records.conserves h hbounded (recordSamples_records h.duration ..)
  | drain => exact Leaves.conserves h hbounded head.drain_leaves
  | drainWindows => exact Leaves.conserves h hbounded head.drainWindows_leaves
  | takeOutOfOrderWindow startMs endMs =>
    exact Leaves.conserves h hbounded (head.takeOutOfOrderWindow_leaves startMs endMs)
  | tryFreezeForPublication faults =>
    exact Published.conserves h hbounded (head.tryFreezeForPublication_published faults)
  | enableLiveCoverageTracking =>
    exact .of_same h hbounded head.enableLiveCoverageTracking_same.1
      head.enableLiveCoverageTracking_same.2
  | retireKindGuards startMs endMs lane =>
    exact .of_same h hbounded (head.retireKindGuards_same startMs endMs lane).1
      (head.retireKindGuards_same startMs endMs lane).2

theorem run_conserves (h : head.Inv durationMs) (hbounded : head.Bounded) (ops : List HeadOp) :
    Conserves durationMs head (head.run ops).accepted (head.run ops).head (head.run ops).windows
      (head.run ops).fragments := by
  suffices hsteps : ∀ (ops : List HeadOp) (run : HeadRun K),
      Conserves durationMs head run.accepted run.head run.windows run.fragments →
      Conserves durationMs head (ops.foldl HeadRun.step run).accepted
        (ops.foldl HeadRun.step run).head (ops.foldl HeadRun.step run).windows
        (ops.foldl HeadRun.step run).fragments by
    exact hsteps ops ⟨head, [], [], []⟩ (.of_same h hbounded ⟨rfl, rfl, rfl, rfl⟩ rfl)
  intro ops
  induction ops with
  | nil => exact fun _ hrun => hrun
  | cons op ops ih =>
    intro run hrun
    exact ih (run.step op) (hrun.trans (perform_conserves hrun.inv hrun.bounded op))

theorem new_inv {config : HeadConfig} (hnew : new K config = .ok head) :
    head.Inv (UInt64.ofNat config.windowDuration) ∧ head.Bounded ∧ head.held = 0 := by
  unfold new at hnew
  split at hnew
  · cases hnew
  rename_i hvalid
  obtain rfl := Except.ok.inj hnew
  have hduration : config.windowDurationMs = .ok (UInt64.ofNat config.windowDuration) := by
    simp only [HeadConfig.validate, HeadConfig.windowDurationMs, except_bind_ok, require_ok,
      exists_const, except_pure_ok] at hvalid ⊢
    obtain ⟨_, ⟨hne, hlt, -⟩, -⟩ := hvalid
    exact ⟨hne, hlt, trivial⟩
  exact ⟨⟨hduration, fun _ hw => (by cases hw), fun _ hw => (by cases hw),
    fun _ he => (by cases he)⟩, fun _ hw => (by cases hw), rfl⟩

/-- A head conserves samples. In every run, whatever calls fail, the accepted samples are those of
its windows and of all windows and fragments that were returned; each of these is an aligned range
around its samples, ordered in the in-order lane and counted. -/
theorem head_conserves_samples (K : HeadCodecs) (config : HeadConfig) {head : HeadBuffer K}
    (hnew : HeadBuffer.new K config = .ok head) (ops : List HeadOp) :
    ((head.run ops).accepted : Multiset Sample) =
        samplesOf (head.run ops).head.window.toList +
          samplesOf ((head.run ops).head.oooWindows.map Prod.snd) +
          samplesOf (head.run ops).head.retainedWindows +
          samplesOf (head.run ops).windows + fragmentSamplesOf (head.run ops).fragments ∧
      ∀ holding ∈ (head.run ops).holdings,
        holding.Sound (UInt64.ofNat config.windowDuration) := by
  obtain ⟨hinv, hbounded, hempty⟩ := new_inv hnew
  have hrun := run_conserves hinv hbounded ops
  refine ⟨?_, ?_⟩
  · have heq := hrun.held_eq
    rw [hempty, add_zero, held_eq] at heq
    rw [← heq]
    abel
  · have hsound := forall_mem_append.mpr ⟨hrun.inv.sound, hrun.windows_sound⟩
    exact forall_mem_append.mpr ⟨forall_mem_map.mpr fun w hw => (hsound w hw).holding,
      forall_mem_map.mpr hrun.fragments_sound⟩

theorem head_conserves_samples_drained :
    ∃ head, HeadBuffer.new (headCodecs fun _ => floatRawCodec)
        ⟨10, 2, .gorilla, .deltaZigZag, .schema, 100, true⟩ = .ok head ∧
      let run := head.run [.recordSample ⟨1⟩ 12 (.float ⟨1⟩) ⟨none, fun _ => none⟩,
        .recordSample ⟨1⟩ 11 (.float ⟨2⟩) ⟨none, fun _ => none⟩,
        .recordSample ⟨1⟩ 25 (.float ⟨3⟩) ⟨none, fun _ => none⟩, .drainWindows]
      run.accepted.length = 3 ∧
        (run.accepted : Multiset Sample) = samplesOf run.windows ∧
        ∀ holding ∈ run.holdings, holding.Sound 10 := by
  refine ⟨_, rfl, ?_⟩
  intro run
  obtain ⟨hsamples, hsound⟩ := head_conserves_samples (headCodecs fun _ => floatRawCodec)
    ⟨10, 2, .gorilla, .deltaZigZag, .schema, 100, true⟩ rfl
    [.recordSample ⟨1⟩ 12 (.float ⟨1⟩) ⟨none, fun _ => none⟩,
      .recordSample ⟨1⟩ 11 (.float ⟨2⟩) ⟨none, fun _ => none⟩,
      .recordSample ⟨1⟩ 25 (.float ⟨3⟩) ⟨none, fun _ => none⟩, .drainWindows]
  refine ⟨rfl, ?_, hsound⟩
  refine hsamples.trans ?_
  change samplesOf [] + samplesOf [] + samplesOf [] + samplesOf run.windows +
    fragmentSamplesOf [] = _
  rw [samplesOf_nil, fragmentSamplesOf_nil, zero_add, zero_add, zero_add, add_zero]

end

end Chronoxide
