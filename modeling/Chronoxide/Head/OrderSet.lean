import Chronoxide.Collections.Runs
import Chronoxide.Head.LiveCoverage

/-! Orders as natural numbers, and an order set as the list of its orders. -/

namespace Chronoxide
open Codec List

/-- Orders as numbers: all ordinals of a message, then those of the next one. -/
def RecordedSampleOrder.position (order : RecordedSampleOrder) : ℕ :=
  order.messageSequence.toNat * 2 ^ 64 + order.sampleOrdinal.toNat

namespace RecordedSampleOrder

variable {a b : RecordedSampleOrder}

theorem position_inj (h : a.position = b.position) : a = b := by
  have ha := a.sampleOrdinal.toNat_lt
  have hb := b.sampleOrdinal.toNat_lt
  unfold position at h
  have hmessage : a.messageSequence = b.messageSequence := UInt64.toNat_inj.mp (by omega)
  have hordinal : a.sampleOrdinal = b.sampleOrdinal := UInt64.toNat_inj.mp (by omega)
  cases a
  cases b
  simp_all

theorem le_iff_position : a.le b = true ↔ a.position ≤ b.position := by
  have ha := a.sampleOrdinal.toNat_lt
  have hb := b.sampleOrdinal.toNat_lt
  simp only [le, position, Bool.or_eq_true, Bool.and_eq_true, decide_eq_true_eq, beq_iff_eq,
    UInt64.lt_iff_toNat_lt, UInt64.le_iff_toNat_le, ← UInt64.toNat_inj]
  omega

/-- The next position is in the same message. -/
def Joined (p : ℕ) : Prop := (p + 1) % 2 ^ 64 ≠ 0

instance : DecidablePred Joined := fun _ => inferInstanceAs (Decidable (_ ≠ _))

theorem precedes_iff_position :
    a.precedes b = true ↔ Joined a.position ∧ a.position + 1 = b.position := by
  have ha := a.sampleOrdinal.toNat_lt
  have hb := b.sampleOrdinal.toNat_lt
  simp only [precedes, Joined, position, Bool.and_eq_true, beq_iff_eq, ← UInt64.toNat_inj]
  omega

end RecordedSampleOrder

open RecordedSampleOrder (Joined)

def RecordedSampleOrderRun.span (run : RecordedSampleOrderRun) : ℕ × ℕ :=
  (run.first.position, run.last.position)

theorem rangesAreAdjacent_iff {left right : RecordedSampleOrderRun} :
    rangesAreAdjacent left right = true ↔ Runs.Adjacent Joined left.span right.span :=
  RecordedSampleOrder.precedes_iff_position

theorem RecordedSampleOrderRun.span_inj {a b : RecordedSampleOrderRun} (h : a.span = b.span) :
    a = b := by
  have hfirst := RecordedSampleOrder.position_inj (congrArg Prod.fst h)
  have hlast := RecordedSampleOrder.position_inj (congrArg Prod.snd h)
  cases a
  cases b
  simp_all

theorem valid_one (p : ℕ) : Runs.Valid Joined (p, p) :=
  ⟨Nat.le_refl p, fun _ hlo hhi => absurd hhi (Nat.not_lt.mpr hlo)⟩

namespace RecordedSampleOrderSet

def spans (set : RecordedSampleOrderSet) : List (ℕ × ℕ) := set.runs.map RecordedSampleOrderRun.span

def positions (set : RecordedSampleOrderSet) : List ℕ := Runs.elements set.spans

/-- Runs as long as possible, counted. -/
structure Canonical (set : RecordedSampleOrderSet) : Prop where
  runs : Runs.Canonical Joined set.spans
  count : set.sampleCount = set.positions.length

theorem canonical_empty : empty.Canonical := ⟨Runs.canonical_nil, rfl⟩

variable {set set' : RecordedSampleOrderSet}

theorem Canonical.ext (h : set.Canonical) (h' : set'.Canonical)
    (heq : set.positions = set'.positions) : set = set' := by
  have hspans := h.runs.ext h'.runs heq
  have hruns : set.runs = set'.runs :=
    map_injective_iff.mpr (fun _ _ => RecordedSampleOrderRun.span_inj) hspans
  have hcount : set.sampleCount = set'.sampleCount := by rw [h.count, h'.count, heq]
  cases set
  cases set'
  simp_all

variable {order : RecordedSampleOrder} {fault : Option IoError}
  {prepared : PreparedRecordedSampleAppend}

theorem tryPrepareAppend_ok (h : set.tryPrepareAppend order fault = .ok prepared) :
    prepared = ⟨order, set.sampleCount + 1,
        (set.runs.getLast?.map (·.last)).any (·.precedes order)⟩ ∧
      Runs.Behind set.spans (order.position, order.position) ∧ set.sampleCount + 1 < 2 ^ 64 := by
  simp only [tryPrepareAppend, require_bind_ok] at h
  obtain ⟨hbehind, hcount, h⟩ := h
  refine ⟨?_, ?_, hcount⟩
  · split at h
    · split at h
      · cases h
      · exact (Except.ok.inj h).symm
    · exact (Except.ok.inj h).symm
  intro last hlast
  rw [spans, getLast?_map] at hlast
  obtain ⟨run, hrun, rfl⟩ := Option.map_eq_some_iff.mp hlast
  rw [hrun, Option.map_some, Option.any_some, RecordedSampleOrder.le_iff_position] at hbehind
  exact Nat.not_le.mp hbehind

theorem spans_commitPreparedAppend (h : set.tryPrepareAppend order fault = .ok prepared) :
    (set.commitPreparedAppend prepared).spans =
      Runs.push Joined set.spans (order.position, order.position) := by
  obtain ⟨rfl, -, -⟩ := tryPrepareAppend_ok h
  rcases eq_nil_or_concat set.runs with hruns | ⟨front, last, hruns⟩
  · simp [commitPreparedAppend, spans, hruns, Runs.push, RecordedSampleOrderRun.span]
  rw [concat_eq_append] at hruns
  simp only [commitPreparedAppend, spans, hruns, getLast?_concat, Option.map_some,
    Option.any_some, map_append, map_cons, map_nil, Runs.push_concat, dropLast_concat]
  by_cases hadj : last.last.precedes order = true
  · have hspan : Runs.Adjacent Joined last.span (order.position, order.position) :=
      RecordedSampleOrder.precedes_iff_position.mp hadj
    rw [hadj, if_pos hspan]
    simp [RecordedSampleOrderRun.span]
  have hspan : ¬ Runs.Adjacent Joined last.span (order.position, order.position) :=
    fun hspan => hadj (RecordedSampleOrder.precedes_iff_position.mpr hspan)
  rw [Bool.eq_false_of_not_eq_true hadj, if_neg hspan]
  simp [RecordedSampleOrderRun.span]

theorem positions_commitPreparedAppend (hset : set.Canonical)
    (h : set.tryPrepareAppend order fault = .ok prepared) :
    (set.commitPreparedAppend prepared).positions = set.positions ++ [order.position] := by
  rw [positions, spans_commitPreparedAppend h,
    Runs.elements_push hset.runs.valid (valid_one order.position), positions]
  simp

theorem Canonical.commitPreparedAppend (hset : set.Canonical)
    (h : set.tryPrepareAppend order fault = .ok prepared) :
    (set.commitPreparedAppend prepared).Canonical := by
  have hpositions := positions_commitPreparedAppend hset h
  obtain ⟨hprepared, hbehind, -⟩ := tryPrepareAppend_ok h
  refine ⟨?_, ?_⟩
  · rw [spans_commitPreparedAppend h]
    exact hset.runs.push (valid_one _) hbehind
  · rw [hpositions, length_append, ← hset.count]
    rw [hprepared]
    rfl

end RecordedSampleOrderSet

end Chronoxide
