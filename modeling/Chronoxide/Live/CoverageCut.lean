import Chronoxide.Head.Codecs
import Chronoxide.Head.OrderUnion
import Chronoxide.Head.Tracking

/-! The coverage check of a publication (`validate_coverage` of `live_publisher.rs`): the pending
fragments own exactly the orders that are not sealed yet, each of them once. -/

namespace Chronoxide
open Codec RecordedSampleOrder List
open RecordedSampleOrderSet (Built)

structure CompletedMessageCoverage where
  messageSequence : UInt64
  completedPrefix : CoverageLedger

structure PendingFragment (K : HeadCodecs) where
  fragment : FrozenHeadFragment K
  handedOff : Bool

structure LivePublisher (K : HeadCodecs) where
  pending : List (PendingFragment K)
  sealedCoverage : CoverageLedger
  expectedUnsealed : RecordedSampleOrderSet

/-- The failure, if any, to reserve the union of two sets. -/
abbrev UnionFaults := RecordedSampleOrderSet → RecordedSampleOrderSet → Option IoError

/-- The variables of the loop over the pending fragments. -/
structure PendingCoverage where
  headCoverage : CoverageLedger
  headOrders : RecordedSampleOrderSet
  handoffOrders : RecordedSampleOrderSet

section
variable {K : HeadCodecs}

def PendingFragment.validate (completed : CompletedMessageCoverage) (pending : PendingFragment K) :
    Except IoError RecordedSampleOrderSet := do
  require (pending.fragment.coverageTracking = true)
    (invalidData "live coverage validation encountered an untracked fragment")
  let some range := pending.fragment.recordedOrderRange
    | throw (invalidData "tracked pending fragment has no recorded order range")
  require (range.last.messageSequence ≤ completed.messageSequence)
    (invalidData "pending fragment extends beyond the candidate message cut")
  let orders := pending.fragment.recordedOrders
  orders.validate
  require (orders.sampleCount = pending.fragment.datapoints ∧
      orders.sampleCount = pending.fragment.coverage.sampleCount)
    (invalidData "frozen fragment exact ownership disagrees with its datapoints or ledger")
  require (orders.runs.head?.map (·.first) = some range.first ∧
      orders.runs.getLast?.map (·.last) = some range.last)
    (invalidData "frozen fragment coarse order range disagrees with exact ownership")
  return orders

def PendingCoverage.add (completed : CompletedMessageCoverage) (faults : UnionFaults)
    (coverage : PendingCoverage) (pending : PendingFragment K) :
    Except IoError PendingCoverage := do
  let orders ← pending.validate completed
  if pending.handedOff then
    let handoffOrders ← coverage.handoffOrders.checkedUnion orders
      (faults coverage.handoffOrders orders)
    return { coverage with handoffOrders }
  let headOrders ← coverage.headOrders.checkedUnion orders (faults coverage.headOrders orders)
  let headCoverage ← coverage.headCoverage.checkedMerge pending.fragment.coverage
  return { coverage with headCoverage, headOrders }

def LivePublisher.validateCoverage (publisher : LivePublisher K) (faults : UnionFaults)
    (completed : CompletedMessageCoverage) : Except IoError RecordedSampleOrderSet := do
  let coverage ← publisher.pending.foldlM (PendingCoverage.add completed faults)
    ⟨.empty, .empty, .empty⟩
  let candidateUnsealed ← coverage.headOrders.checkedUnion coverage.handoffOrders
    (faults coverage.headOrders coverage.handoffOrders)
  let expected := publisher.expectedUnsealed
  require (candidateUnsealed = expected) (invalidData (
    "live exact ownership mismatch: expected " ++ toString expected.sampleCount ++ " samples in " ++
      toString expected.runs.length ++ " runs, structurally owned " ++
      toString candidateUnsealed.sampleCount ++ " samples in " ++
      toString candidateUnsealed.runs.length ++ " runs"))
  let owned ← publisher.sealedCoverage.checkedMerge coverage.headCoverage
  require (owned = completed.completedPrefix) (invalidData (
    "live coverage mismatch: expected " ++ toString completed.completedPrefix.sampleCount ++
      " recorded samples, structurally owned " ++ toString owned.sampleCount))
  return coverage.headOrders

variable {completed : CompletedMessageCoverage} {faults : UnionFaults} {p : PendingFragment K}
  {heads handoffs log : List RecordedSample} {a b s : RecordedSampleOrderSet}

theorem PendingFragment.validate_ok (h : p.validate completed = .ok b) :
    b = p.fragment.recordedOrders := by
  unfold validate at h
  split at h
  · simp only [except_bind_ok, except_pure_ok] at h
    obtain ⟨_, -, _, -, _, -, _, -, _, -, rfl⟩ := h
    rfl
  · cases (require_bind_ok.mp h).2

/-- The set has the orders of the recorded samples, each once. -/
def RecordedSampleOrderSet.Holds (set : RecordedSampleOrderSet) (log : List RecordedSample) :
    Prop :=
  set.Sound ∧ set.positions.Perm (log.map fun e => e.2.order.position)

theorem RecordedSampleOrderSet.Holds.union {fault : Option IoError} (h : a.Holds log)
    (hb : b.Canonical) (hheads : b.positions = heads.map fun e => e.2.order.position)
    (hs : a.checkedUnion b fault = .ok s) : s.Holds (log ++ heads) := by
  have hfits : b.sampleCount < 2 ^ 64 := by
    cases fault with
    | some error =>
      simp only [checkedUnion, except_bind_ok] at hs
      obtain ⟨_, -, _, -, _, -, _, hs, -⟩ := hs
      cases hs
    | none =>
      simp only [checkedUnion, except_bind_ok, require_ok, exists_const] at hs
      obtain ⟨_, -, _, -, -, _, -, hfits, -⟩ := hs
      omega
  obtain ⟨hsound, hperm⟩ := checkedUnion_ok h.1 ⟨hb, hfits⟩ hs
  refine ⟨hsound, hperm.trans ?_⟩
  rw [map_append]
  exact h.2.append (.of_eq hheads)

namespace PendingCoverage

structure Covers (coverage : PendingCoverage) (heads handoffs : List RecordedSample) : Prop where
  headCoverage : coverage.headCoverage = .ofContributions (heads.map Prod.snd)
  headOrders : coverage.headOrders.Holds heads
  handoffOrders : coverage.handoffOrders.Holds handoffs

theorem Covers.add {coverage out : PendingCoverage} (h : coverage.Covers heads handoffs)
    (hp : p.fragment.tracked.DescribesLog log) (hadd : coverage.add completed faults p = .ok out) :
    if p.handedOff then out.Covers heads (handoffs ++ log)
    else out.Covers (heads ++ log) handoffs := by
  obtain ⟨_, hvalid, hadd⟩ := except_bind_ok.mp hadd
  obtain rfl := p.validate_ok hvalid
  split at hadd
  case isTrue hhanded =>
    rw [if_pos hhanded]
    simp only [except_bind_ok, except_pure_ok] at hadd
    obtain ⟨orders, horders, rfl⟩ := hadd
    exact ⟨h.headCoverage, h.headOrders, h.handoffOrders.union hp.canonical hp.orders horders⟩
  case isFalse hhanded =>
    rw [if_neg hhanded]
    simp only [except_bind_ok, except_pure_ok, CoverageLedger.checkedMerge, require_ok] at hadd
    obtain ⟨orders, horders, _, ⟨_, -, rfl⟩, rfl⟩ := hadd
    refine ⟨?_, h.headOrders.union hp.canonical hp.orders horders, h.handoffOrders⟩
    rw [map_append, CoverageLedger.ofContributions_append, h.headCoverage]
    simp [CoverageLedger.ofContributions, Function.comp_def, ← hp.count, ← hp.fingerprint,
      FrozenHeadFragment.tracked]

theorem covers_of_foldlM {pending : List (PendingFragment K)} {out : PendingCoverage}
    {logs : PendingFragment K → List RecordedSample}
    (hlogs : ∀ p ∈ pending, p.fragment.tracked.DescribesLog (logs p))
    (h : pending.foldlM (add completed faults) ⟨.empty, .empty, .empty⟩ = .ok out) :
    out.Covers ((pending.filter (!·.handedOff)).flatMap logs)
      ((pending.filter (·.handedOff)).flatMap logs) := by
  induction pending using List.reverseRecOn generalizing out with
  | nil =>
    obtain rfl := Except.ok.inj h
    have hempty : RecordedSampleOrderSet.empty.Holds [] :=
      ⟨⟨RecordedSampleOrderSet.canonical_empty, by decide⟩, .nil⟩
    exact ⟨rfl, hempty, hempty⟩
  | append_singleton front p ih =>
    rw [forall_mem_append, forall_mem_singleton] at hlogs
    rw [foldlM_append, except_bind_ok] at h
    obtain ⟨coverage, hfront, hadd⟩ := h
    have hstep := (ih hlogs.1 hfront).add hlogs.2 (by simpa using hadd)
    cases hp : p.handedOff <;> simpa [hp] using hstep

end PendingCoverage

/-- What the check accepts is exact: the expected orders are those of the recorded samples of the
pending fragments, none missing and none owned twice; the returned ones are those that
stay in the head, which with what was sealed make up the completed prefix. -/
theorem LivePublisher.validateCoverage_exact (publisher : LivePublisher K) (faults : UnionFaults)
    (completed : CompletedMessageCoverage) :
    match publisher.validateCoverage faults completed with
    | .error _ => True
    | .ok orders => ∀ logs : PendingFragment K → List RecordedSample,
      (∀ p ∈ publisher.pending, p.fragment.tracked.DescribesLog (logs p)) →
      let log := publisher.pending.flatMap logs
      let head := (publisher.pending.filter (!·.handedOff)).flatMap logs
      publisher.expectedUnsealed.Holds log ∧ orders.Holds head ∧
      publisher.sealedCoverage.checkedMerge (.ofContributions (head.map Prod.snd)) =
        .ok completed.completedPrefix := by
  split
  · trivial
  rename_i orders h
  intro logs hlogs log head
  simp only [validateCoverage, except_bind_ok, require_ok, exists_const, except_pure_ok] at h
  obtain ⟨coverage, hfold, _, hunsealed, rfl, _, howned, rfl, rfl⟩ := h
  have h := PendingCoverage.covers_of_foldlM hlogs hfold
  obtain ⟨hsound, hunion⟩ :=
    RecordedSampleOrderSet.checkedUnion_ok h.headOrders.1 h.handoffOrders.1 hunsealed
  refine ⟨⟨hsound, (hunion.trans (h.headOrders.2.append h.handoffOrders.2)).trans ?_⟩,
    h.headOrders, h.headCoverage ▸ howned⟩
  rw [← map_append, ← flatMap_append]
  exact ((perm_append_comm.trans (filter_append_perm _ _)).flatMap_right _).map _

def unitFingerprint : CoverageFingerprint := ⟨1 :: replicate 31 0, by decide⟩

/-- Two integers of one series, recorded in one message from the given ordinal on. -/
def pairLog (ordinal : UInt64) : List RecordedSample :=
  [(⟨⟨0⟩, 5, .int64 1⟩, ⟨⟨0, ordinal⟩, unitFingerprint⟩),
    (⟨⟨0⟩, 6, .int64 2⟩, ⟨⟨0, ordinal + 1⟩, unitFingerprint⟩)]

def pairFragment (ordinal : UInt64) : FrozenHeadFragment (headCodecs fun _ => floatRawCodec) where
  startMs := 0
  endMs := 100
  lane := .inOrder
  datapoints := 2
  coverageTracking := true
  coverage := ⟨2, unitFingerprint + unitFingerprint⟩
  recordedOrderRange := some ⟨⟨0, ordinal⟩, ⟨0, ordinal + 1⟩⟩
  recordedOrders := ⟨[⟨⟨0, ordinal⟩, ⟨0, ordinal + 1⟩⟩], 2⟩
  publicationSequence := 0
  runs := [⟨⟨0⟩, .int64, .inlineIntDelta ⟨[(5, 1), (6, 2)], 100, by decide⟩⟩]

theorem pairFragment_describes {ordinal : UInt64}
    (h : (pairFragment ordinal).recordedOrders.Canonical)
    (hpositions : (pairFragment ordinal).recordedOrders.positions =
      (pairLog ordinal).map fun e => e.2.order.position) :
    (pairFragment ordinal).tracked.DescribesLog (pairLog ordinal) := by
  refine ⟨rfl, rfl, ?_, hpositions, h, rfl, rfl⟩
  simp [pairLog, pairFragment, FrozenHeadFragment.tracked]

/-- One sample is sealed, one fragment stays in the head and one was handed off: the check returns
the orders of the fragment that stays. -/
theorem LivePublisher.validateCoverage_exact_handoff :
    let publisher : LivePublisher (headCodecs fun _ => floatRawCodec) :=
      ⟨[⟨pairFragment 0, false⟩, ⟨pairFragment 2, true⟩], ⟨1, unitFingerprint⟩,
        ⟨[⟨⟨0, 0⟩, ⟨0, 3⟩⟩], 4⟩⟩
    let completed : CompletedMessageCoverage :=
      ⟨0, ⟨3, unitFingerprint + (unitFingerprint + unitFingerprint)⟩⟩
    publisher.validateCoverage (fun _ _ => none) completed =
        .ok (pairFragment 0).recordedOrders ∧
      publisher.expectedUnsealed.Holds (pairLog 0 ++ pairLog 2) ∧
      (pairFragment 0).recordedOrders.Holds (pairLog 0) ∧
      publisher.sealedCoverage.checkedMerge (.ofContributions ((pairLog 0).map Prod.snd)) =
        .ok completed.completedPrefix := by
  intro publisher completed
  have hhead : Built (pairFragment 0).recordedOrders [⟨0, 0⟩, ⟨0, 1⟩] := Built.appends .empty rfl
  have hhandoff : Built (pairFragment 2).recordedOrders [⟨0, 2⟩, ⟨0, 3⟩] :=
    Built.appends .empty rfl
  have hall : Built publisher.expectedUnsealed [⟨0, 0⟩, ⟨0, 1⟩, ⟨0, 2⟩, ⟨0, 3⟩] :=
    Built.appends .empty rfl
  have hfold : publisher.pending.foldlM (PendingCoverage.add completed fun _ _ => none)
      ⟨.empty, .empty, .empty⟩ = .ok ⟨(pairFragment 0).coverage,
        (pairFragment 0).recordedOrders, (pairFragment 2).recordedOrders⟩ :=
    except_bind_ok.mpr ⟨_, except_bind_ok.mpr ⟨_, rfl, except_bind_ok.mpr
        ⟨_, Built.checkedUnion_eq .empty hhead hhead (.refl _), rfl⟩⟩,
      except_bind_ok.mpr ⟨_, except_bind_ok.mpr ⟨_, rfl, except_bind_ok.mpr
        ⟨_, Built.checkedUnion_eq .empty hhandoff hhandoff (.refl _), rfl⟩⟩, rfl⟩⟩
  have hok : publisher.validateCoverage (fun _ _ => none) completed =
      .ok (pairFragment 0).recordedOrders :=
    except_bind_ok.mpr ⟨_, hfold, except_bind_ok.mpr
      ⟨_, Built.checkedUnion_eq hhead hhandoff hall (.refl _), rfl⟩⟩
  have hexact := publisher.validateCoverage_exact (fun _ _ => none) completed
  rw [hok] at hexact
  refine ⟨hok, hexact (fun p => if p.handedOff then pairLog 2 else pairLog 0)
    (forall_mem_cons.mpr ⟨?_, forall_mem_singleton.mpr ?_⟩)⟩
  · exact pairFragment_describes hhead.sound.1.toCanonical (by decide +kernel)
  · exact pairFragment_describes hhandoff.sound.1.toCanonical (by decide +kernel)

end
end Chronoxide
