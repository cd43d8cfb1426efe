import Chronoxide.Collections.Ownership
import Chronoxide.Head.OrderSet
import Chronoxide.Head.Run
import Mathlib.Data.BitVec

/-! What the coverage of a tracked window accounts for: its ledger and its orders are those of the
contributions its samples were recorded with. -/

namespace Chronoxide
open Codec Ownership List

abbrev RecordedSample := Sample × RecordedSampleContribution

structure TrackedContents where
  samples : Multiset Sample
  coverage : CoverageLedger
  orderRange : Option RecordedSampleOrderRange
  orders : RecordedSampleOrderSet

variable {share : Multiset RecordedSample}

namespace TrackedContents

def empty : TrackedContents := ⟨0, .empty, none, .empty⟩

/-- The coverage of samples recorded one after the other. -/
structure DescribesLog (contents : TrackedContents) (log : List RecordedSample) : Prop where
  samples : contents.samples = (log.map Prod.fst : List Sample)
  count : contents.coverage.sampleCount = log.length
  fingerprint : contents.coverage.fingerprint = (log.map fun e => e.2.fingerprint).sum
  orders : contents.orders.positions = log.map fun e => e.2.order.position
  canonical : contents.orders.Canonical
  first : contents.orderRange.map (·.first) = log.head?.map fun e => e.2.order
  last : contents.orderRange.map (·.last) = log.getLast?.map fun e => e.2.order

/-- The ledger counts and sums the recorded samples, and the order set holds their orders. -/
def Describes (contents : TrackedContents) (share : Multiset RecordedSample) : Prop :=
  ∃ log : List RecordedSample, log = share ∧ contents.DescribesLog log

theorem describes_empty : empty.Describes 0 :=
  ⟨[], rfl, ⟨rfl, rfl, rfl, rfl, RecordedSampleOrderSet.canonical_empty, rfl, rfl⟩⟩

theorem Describes.eq_zero {contents : TrackedContents}
    (h : contents.Describes share) (hnone : contents.samples = 0) : share = 0 := by
  obtain ⟨log, rfl, hlog⟩ := h
  have hmap : (log.map Prod.fst : Multiset Sample) = 0 := hlog.samples.symm.trans hnone
  rw [Multiset.coe_eq_zero, map_eq_nil_iff] at hmap
  rw [hmap]
  rfl

end TrackedContents

def HeadWindow.tracked {K : HeadCodecs} (w : HeadWindow K) : TrackedContents :=
  ⟨w.samples, w.coverage, w.recordedOrderRange, w.recordedOrders⟩

def FrozenHeadFragment.tracked {K : HeadCodecs} (fragment : FrozenHeadFragment K) :
    TrackedContents :=
  ⟨fragment.samples, fragment.coverage, fragment.recordedOrderRange, fragment.recordedOrders⟩

variable {contribution : RecordedSampleContribution}

namespace HeadWindow

variable {K : HeadCodecs} {w w' : HeadWindow K}

theorem tracked_samples_of_not_hasSamples (h : ¬ w.hasSamples) : w.tracked.samples = 0 := by
  have hseries : w.series = [] := by
    by_contra hne
    apply h
    simp [hasSamples, hne]
  simp [tracked, HeadWindow.samples, hseries, SeriesTable.samples]

theorem pushSample_sameCoverage (config : HeadConfig) (w : HeadWindow K)
    (fault : Nat → Option IoError) (sample : Sample) :
    w.SameCoverage (pushSample config w fault sample).2 := by
  unfold pushSample
  dsimp only
  split
  · split
    · exact ⟨rfl, rfl, rfl, rfl⟩
    · split <;> exact ⟨rfl, rfl, rfl, rfl⟩
  · split <;> exact ⟨rfl, rfl, rfl, rfl⟩

theorem SameCoverage.tracked_eq (h : w.SameCoverage w')
    (hsamples : (w'.samples : Multiset Sample) = w.samples) : w'.tracked = w.tracked := by
  simp [tracked, h.coverage_eq, h.range_eq, h.orders_eq, hsamples]

theorem Kept.tracked_eq (h : w.Kept w') (hcoverage : w.SameCoverage w') : w'.tracked = w.tracked :=
  hcoverage.tracked_eq (by rw [h.samples_eq])

theorem Restored.tracked_eq (h : w.Restored w') : w'.tracked = w.tracked :=
  h.toKept.tracked_eq h.toSameCoverage

theorem checkedCoverageUpdate_ok {fault : Option IoError} {update : PreparedWindowCoverageUpdate}
    (h : w.checkedCoverageUpdate contribution fault = .ok update) :
    update.coverage =
        ⟨w.coverage.sampleCount + 1, w.coverage.fingerprint + contribution.fingerprint⟩ ∧
      update.orderRange =
        ⟨(w.recordedOrderRange.map (·.first)).getD contribution.order, contribution.order⟩ ∧
      w.recordedOrders.tryPrepareAppend contribution.order fault = .ok update.ownershipAppend := by
  simp only [checkedCoverageUpdate, CoverageLedger.checkedWithContribution, except_bind_ok,
    require_ok, exists_const, except_pure_ok] at h
  obtain ⟨-, -, coverage, ⟨-, rfl⟩, h⟩ := h
  cases hold : w.recordedOrderRange with
  | none =>
    simp only [hold, except_bind_ok, except_pure_ok, Except.ok.injEq, exists_eq_left'] at h
    obtain ⟨append, happend, rfl⟩ := h
    exact ⟨rfl, rfl, happend⟩
  | some old =>
    simp only [hold, RecordedSampleOrderRange.checkedExtend, except_bind_ok, require_ok,
      exists_const, except_pure_ok] at h
    obtain ⟨range, ⟨-, rfl⟩, append, happend, rfl⟩ := h
    exact ⟨rfl, rfl, happend⟩

def recordedBy (result : Except IoError Bool) (e : RecordedSample) : Multiset RecordedSample :=
  match result with
  | .ok true => {e}
  | _ => 0

@[simp] theorem recordedBy_false (e : RecordedSample) : recordedBy (.ok false) e = 0 := rfl

@[simp] theorem recordedBy_error (error : IoError) (e : RecordedSample) :
    recordedBy (.error error) e = 0 := rfl

theorem recordedBy_of_ne {result : Except IoError Bool} (h : result ≠ .ok true)
    (e : RecordedSample) : recordedBy result e = 0 := by
  unfold recordedBy
  split
  · exact absurd rfl h
  · rfl

theorem Took.describes {sample : Sample}
    {fault : Option IoError} {update : PreparedWindowCoverageUpdate}
    (htook : w.Took w' sample) (hcoverage : w.SameCoverage w')
    (hupdate : w.checkedCoverageUpdate contribution fault = .ok update)
    (h : w.tracked.Describes share) :
    (w'.commitCoverage update).tracked.Describes ({(sample, contribution)} + share) := by
  obtain ⟨log, rfl, hlog⟩ := h
  obtain ⟨hledger, hrange, happend⟩ := checkedCoverageUpdate_ok hupdate
  have horders : w'.recordedOrders = w.recordedOrders := hcoverage.orders_eq
  have hcanonical : w.recordedOrders.Canonical := hlog.canonical
  refine ⟨log ++ [(sample, contribution)], ?_, ?_⟩
  · rw [← Multiset.coe_add, Multiset.coe_singleton, add_comm]
  constructor
  · have hperm : (w'.samples : Multiset Sample) = sample ::ₘ w.samples :=
      Multiset.coe_eq_coe.mpr htook.samples_perm
    have hold : (w.samples : Multiset Sample) = (log.map Prod.fst : List Sample) := hlog.samples
    change (w'.samples : Multiset Sample) = _
    rw [hperm, hold, map_append, ← Multiset.coe_add, map_singleton,
      Multiset.coe_singleton, add_comm, Multiset.singleton_add]
  · change update.coverage.sampleCount = _
    rw [hledger, length_append, ← hlog.count]
    rfl
  · change update.coverage.fingerprint = _
    rw [hledger, map_append, sum_append, ← hlog.fingerprint]
    simp [tracked]
  · change (w'.recordedOrders.commitPreparedAppend update.ownershipAppend).positions = _
    rw [horders, RecordedSampleOrderSet.positions_commitPreparedAppend hcanonical happend,
      map_append, ← hlog.orders]
    rfl
  · change (w'.recordedOrders.commitPreparedAppend update.ownershipAppend).Canonical
    rw [horders]
    exact hcanonical.commitPreparedAppend happend
  · have hfirst := hlog.first
    change (some update.orderRange).map (·.first) = _
    rw [hrange, Option.map_some]
    simp only [tracked] at hfirst
    rw [hfirst, head?_append]
    cases log.head? <;> rfl
  · change (some update.orderRange).map (·.last) = _
    rw [hrange, getLast?_concat]
    rfl

theorem recordSample_describes {config : HeadConfig} (hsize : config.blockSize ≤ counterMax 32)
    (hwf : w.WF) (faults : SampleFaults) (contribution : RecordedSampleContribution)
    (sample : Sample) (h : w.tracked.Describes share) :
    (recordSample config w faults (some contribution) sample).2.tracked.Describes
      (recordedBy (recordSample config w faults (some contribution) sample).1
        (sample, contribution) + share) := by
  have hpushed := pushSample_pushedTo hsize hwf faults.block sample
  have hcoverage := pushSample_sameCoverage config w faults.block sample
  unfold recordSample
  dsimp only
  split
  · rw [recordedBy_error, zero_add]
    exact h
  rename_i update hupdate
  generalize pushSample config w faults.block sample = outcome at hpushed hcoverage
  obtain ⟨result, w'⟩ := outcome
  rcases result with error | accepted
  · have hkept : w.Kept w' := hpushed
    rw [hkept.tracked_eq hcoverage, recordedBy_error, zero_add]
    exact h
  cases accepted with
  | false =>
    obtain rfl : w' = w := hpushed
    rw [recordedBy_false, zero_add]
    exact h
  | true => exact Took.describes hpushed hcoverage hupdate h

end HeadWindow

def trackedOf {K : HeadCodecs} (windows : List (HeadWindow K)) : List TrackedContents :=
  windows.map HeadWindow.tracked

theorem trackedOf_restored {K : HeadCodecs} {windows windows' : List (HeadWindow K)}
    (h : List.Forall₂ HeadWindow.Restored windows windows') :
    trackedOf windows' = trackedOf windows := by
  induction h with
  | nil => rfl
  | cons hrestored _ ih =>
    rw [trackedOf, map_cons, hrestored.tracked_eq]
    exact congrArg _ ih

namespace HeadBuffer

variable {K : HeadCodecs} {durationMs : UInt64} {head head' head'' : HeadBuffer K}

@[simp] theorem trackedOf_append (front back : List (HeadWindow K)) :
    trackedOf (front ++ back) = trackedOf front ++ trackedOf back :=
  map_append

/-- The recorded samples stay divided when `out` leaves the head and `extra` is recorded. -/
def Hands (head head' : HeadBuffer K) (out : List TrackedContents)
    (extra : Multiset RecordedSample) : Prop :=
  ∀ others total, Owns TrackedContents.Describes (trackedOf head.windows ++ others) total →
    Owns TrackedContents.Describes (trackedOf head'.windows ++ (out ++ others)) (extra + total)

theorem Hands.trans {out out' : List TrackedContents} {extra extra' : Multiset RecordedSample}
    (h : head.Hands head' out extra) (h' : head'.Hands head'' out' extra') :
    head.Hands head'' (out ++ out') (extra' + extra) := by
  intro others total howns
  have hsecond := h' _ _ (h others total howns)
  rw [← add_assoc] at hsecond
  refine hsecond.perm (List.Perm.append_left _ ?_)
  rw [← append_assoc]
  exact perm_append_comm.append_right _

theorem hands_of_perm {out : List TrackedContents}
    (h : (trackedOf head.windows).Perm (trackedOf head'.windows ++ out)) :
    head.Hands head' out 0 := by
  intro others total howns
  rw [zero_add, ← append_assoc]
  exact howns.perm (h.append_right others)

theorem hands_of_slots_eq (h : head'.slots = head.slots) : head.Hands head' [] 0 := by
  apply hands_of_perm
  rw [← map_snd_slots head, ← h, map_snd_slots, append_nil]

theorem SameWindows.hands (h : head.SameWindows head') : head.Hands head' [] 0 := by
  apply hands_of_slots_eq
  rw [slots, h.window_eq, h.late_eq, h.retained_eq, slots]

theorem Leaves.hands {out : List (HeadWindow K)} (h : head.Leaves head' out) :
    head.Hands head' (trackedOf out) 0 := by
  obtain ⟨gone, windows, hperm, hgone, hout⟩ := h.slots_perm
  have htracked := (hperm.map Prod.snd).map HeadWindow.tracked
  rw [map_append, map_snd_slots, map_snd_slots, map_append] at htracked
  apply hands_of_perm
  refine htracked.trans (perm_append_comm.trans (List.Perm.append_left _ ?_))
  change (trackedOf (gone.map Prod.snd)).Perm _
  rw [← trackedOf_restored hgone]
  exact hout.map _

theorem PlacedIn.hands {range : UInt64 × UInt64} {faults : HeadWindow.SampleFaults}
    {sample : Sample} {outcome : Except IoError Bool × HeadBuffer K × Option (HeadWindow K)}
    {place : WindowPlace} {w : HeadWindow K} {rest : List (Slot K)}
    (hwf : ∀ w ∈ head.windows, w.WF)
    (h : head.PlacedIn range faults (some contribution) sample outcome place w rest) :
    head.Hands outcome.2.1 (trackedOf outcome.2.2.toList)
      (HeadWindow.recordedBy outcome.1 (sample, contribution)) := by
  intro others total howns
  -- the window before it took the sample is among the owners, if need be as one of nothing
  have hbefore : Owns TrackedContents.Describes (w.tracked :: (trackedOf (rest.map Prod.snd) ++
      (trackedOf outcome.2.2.toList ++ others))) total ∧ w.WF := by
    rcases h.before with ⟨hperm, hnone, -⟩ | ⟨gone, hperm, hgone, rfl, -⟩
    · have hwindows := hperm.map Prod.snd
      rw [map_snd_slots] at hwindows
      rw [hnone]
      exact ⟨howns.perm ((hwindows.map HeadWindow.tracked).append_right others),
        hwf w (hwindows.mem_iff.mpr mem_cons_self)⟩
    have hwindows := hperm.map Prod.snd
    rw [map_snd_slots, map_append, map_map] at hwindows
    simp only [Function.comp_def, map_id'] at hwindows
    refine ⟨owns_cons.mpr ⟨0, total, TrackedContents.describes_empty, ?_, zero_add _⟩,
      HeadWindow.new_wf ..⟩
    rw [trackedOf_restored hgone, ← append_assoc, ← trackedOf_append]
    refine howns.perm (List.Perm.append_right _ (hwindows.map HeadWindow.tracked |>.trans ?_))
    exact (perm_append_comm).map _
  have hafter := hbefore.1.update fun share hshare =>
    HeadWindow.recordSample_describes head.blockSize_le hbefore.2 faults contribution sample hshare
  rw [← h.result_eq] at hafter
  refine hafter.perm ?_
  have hwindows := ((h.after.map Prod.snd).map HeadWindow.tracked).symm
  rw [map_snd_slots] at hwindows
  exact hwindows.append_right _

def recordedLog (accepted : List Sample) (contribution : RecordedSampleContribution) :
    List RecordedSample :=
  accepted.map fun sample => (sample, contribution)

section
variable {series : SeriesRef} {accepted : List Sample}

theorem RecordStep.hands {x : OwnedSample} {completed : Option (HeadWindow K)}
    (hwf : ∀ w ∈ head.windows, w.WF) (hx : x.contribution = some contribution)
    (h : RecordStep true durationMs series head x head' completed accepted) :
    head.Hands head' (trackedOf completed.toList) (recordedLog accepted contribution) := by
  have hnothing : head.Hands head [] 0 := hands_of_slots_eq rfl
  cases h with
  | dropped => exact hnothing
  | @placed result _ _ hplaced hrejected =>
    rw [if_pos rfl, hx] at hplaced
    rcases placeSample_cases hplaced with ⟨_, hsame⟩ | ⟨_, _, _, hplacedIn⟩
    · obtain ⟨-, rfl, rfl⟩ := hsame
      exact hnothing
    · have hhands := hplacedIn.hands hwf
      rwa [HeadWindow.recordedBy_of_ne hrejected] at hhands
  | accepted _ hplaced hguarded =>
    rw [if_pos rfl, hx] at hplaced
    rcases placeSample_cases hplaced with ⟨_, hsame⟩ | ⟨_, _, _, hplacedIn⟩
    · cases hsame
    have hmoved := (hplacedIn.hands hwf).trans
      (hands_of_slots_eq (accepted_same hguarded series x.timestampMs).1)
    rw [append_nil, zero_add] at hmoved
    exact hmoved

theorem Records.hands {batch : List OwnedSample} {windows : List (HeadWindow K)}
    (hrecords : Records true durationMs series batch head head' accepted windows)
    (h : head.Inv durationMs) (hbounded : head.Bounded)
    (hbatch : ∀ x ∈ batch, x.contribution = some contribution) :
    head.Hands head' (trackedOf windows) (recordedLog accepted contribution) := by
  obtain ⟨head₁, flushed, hrecording, retained, rfl, hperm⟩ := hrecords
  have hflushed : head.Hands head₁ (trackedOf flushed) (recordedLog accepted contribution) := by
    clear hperm
    induction hrecording with
    | start => exact hands_of_slots_eq rfl
    | @step _ _ _ log accepted _ _ hx hrecording hstep ih =>
      have hinv := (hrecording.conserved h hbounded).inv
      have hhands := ih.trans (hstep.hands (fun w hw => (hinv.sound w hw).wf) (hbatch _ hx))
      rw [trackedOf_append, recordedLog, map_append, ← Multiset.coe_add, add_comm]
      exact hhands
  intro others total howns
  refine (hflushed others total howns).perm ?_
  have htracked := hperm.map HeadWindow.tracked
  rw [map_append, map_append, ← Multiset.coe_eq_coe, ← Multiset.coe_add,
    ← Multiset.coe_add] at htracked
  rw [← Multiset.coe_eq_coe]
  simp only [trackedOf, HeadBuffer.windows, map_append, ← Multiset.coe_add]
  calc _ = ((head₁.retainedWindows.map HeadWindow.tracked : Multiset TrackedContents) +
        flushed.map HeadWindow.tracked) + (head₁.window.toList.map HeadWindow.tracked +
        ((head₁.oooWindows.map Prod.snd).map HeadWindow.tracked + others)) := by abel
    _ = _ := by
      rw [← htracked]
      abel

end

end HeadBuffer

end Chronoxide
