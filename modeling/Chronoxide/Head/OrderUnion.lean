import Chronoxide.Head.OrderSet
import Mathlib.Data.List.Nodup

/-! Joining the order sets of `live_coverage.rs`: an append of later orders, and the union of sets
that have no order in common. -/

namespace Chronoxide
open List hiding span
open Codec RecordedSampleOrder Runs Nat
open RecordedSampleOrder (Joined)
open RecordedSampleOrderRun (span)

variable (runs : List RecordedSampleOrderRun)

/-- `next` behind the runs: it continues the last one, or stands alone. -/
def joinRun (next : RecordedSampleOrderRun) : List RecordedSampleOrderRun :=
  match runs.getLast? with
  | some last =>
    if rangesAreAdjacent last next then runs.dropLast ++ [{ last with last := next.last }]
    else runs ++ [next]
  | none => [next]

def pushDisjointOwnershipRun (next : RecordedSampleOrderRun) :
    Except IoError (List RecordedSampleOrderRun) := do
  require (¬runs.getLast?.any fun previous => next.first.le previous.last)
    (invalidData "recorded-sample contribution has more than one structural owner")
  return joinRun runs next

namespace RecordedSampleOrderSet

def tryAppendOrder (set : RecordedSampleOrderSet) (order : RecordedSampleOrder)
    (fault : Option IoError) : Except IoError Unit × RecordedSampleOrderSet :=
  match set.tryPrepareAppend order fault with
  | .error error => (.error error, set)
  | .ok prepared => (.ok (), set.commitPreparedAppend prepared)

variable (set other : RecordedSampleOrderSet)

def mergesBoundary : Bool :=
  set.runs.getLast?.any fun left => other.runs.head?.any fun right => rangesAreAdjacent left right

def additionalRuns : Nat :=
  other.runs.length - (set.mergesBoundary other).toNat

/-- The checks of an append, before anything is written: the new count. -/
def checkAppend (spare : Nat) (other : RecordedSampleOrderSet) : Except IoError Nat := do
  set.validate
  other.validate
  if other.isEmpty then return set.sampleCount
  require (¬set.runs.getLast?.any fun left => other.runs.head?.any fun right =>
      right.first.le left.last)
    (invalidData "recorded-sample ownership append overlaps or reorders existing membership")
  require (set.sampleCount + other.sampleCount < 2 ^ 64)
    (invalidData "recorded-sample ownership append count overflows u64")
  require (set.additionalRuns other ≤ spare)
    ⟨.outOfMemory, "recorded-sample ownership append was not reserved before sample mutation"⟩
  return set.sampleCount + other.sampleCount

/-- `spare` is the capacity of `set` that its runs do not use. -/
def appendPreReserved (spare : Nat) (other : RecordedSampleOrderSet)
    : Except IoError Unit × RecordedSampleOrderSet :=
  match set.checkAppend spare other, other.runs with
  | .error error, _ => (.error error, set)
  | .ok _, [] => (.ok (), set)
  | .ok sampleCount, first :: rest => (.ok (), ⟨joinRun set.runs first ++ rest, sampleCount⟩)

def mergedRuns : List RecordedSampleOrderRun :=
  set.runs.merge other.runs fun left right => left.first.le right.first

/-- `fault` is the failure, if any, to reserve the runs. -/
def checkedUnion (fault : Option IoError) : Except IoError RecordedSampleOrderSet := do
  set.validate
  other.validate
  require (set.runs.length + other.runs.length < 2 ^ 64)
    (invalidData "recorded-sample ownership union run count overflows usize")
  if let some error := fault then throw error
  let runs ← (set.mergedRuns other).foldlM pushDisjointOwnershipRun []
  require (set.sampleCount + other.sampleCount < 2 ^ 64)
    (invalidData "recorded-sample ownership union count overflows u64")
  let merged : RecordedSampleOrderSet := ⟨runs, set.sampleCount + other.sampleCount⟩
  merged.validate
  return merged

def Contains (set : RecordedSampleOrderSet) (order : RecordedSampleOrder) : Prop :=
  ∃ run ∈ set.runs, run.first.le order = true ∧ order.le run.last = true

theorem contains_iff {set : RecordedSampleOrderSet} {order : RecordedSampleOrder} :
    set.Contains order ↔ order.position ∈ set.positions := by
  simp [Contains, positions, spans, mem_elements, exists_exists_and_eq_and, le_iff_position, span]

end RecordedSampleOrderSet

section
variable {runs acc out : List RecordedSampleOrderRun} {next : RecordedSampleOrderRun}

theorem map_span_joinRun :
    (joinRun runs next).map span = push Joined (runs.map span) next.span := by
  rcases eq_nil_or_concat runs with rfl | ⟨front, last, rfl⟩
  · rfl
  rw [concat_eq_append, joinRun, getLast?_concat, map_append, map_singleton,
    push_concat, dropLast_concat]
  by_cases hadj : rangesAreAdjacent last next = true
  · rw [if_pos (rangesAreAdjacent_iff.mp hadj)]
    simp [hadj, span]
  · rw [if_neg (mt rangesAreAdjacent_iff.mpr hadj)]
    simp [hadj]

theorem not_any_iff_behind :
    (¬runs.getLast?.any fun previous => next.first.le previous.last) ↔
      Runs.Behind (runs.map span) next.span := by
  rw [Runs.Behind, getLast?_map]
  cases runs.getLast? with
  | none => simp
  | some last => simp [le_iff_position, span]

theorem pushDisjointOwnershipRun_ok :
    pushDisjointOwnershipRun runs next = .ok out ↔
      Runs.Behind (runs.map span) next.span ∧ joinRun runs next = out := by
  simp only [pushDisjointOwnershipRun, require_bind_ok, not_any_iff_behind]
  exact and_congr_right fun _ => ⟨Except.ok.inj, congrArg _⟩

theorem pushRuns_ok (hacc : Runs.Canonical Joined (acc.map span))
    (hvalid : ∀ run ∈ runs, Runs.Valid Joined run.span)
    (h : runs.foldlM pushDisjointOwnershipRun acc = .ok out) :
    Runs.Canonical Joined (out.map span) ∧
      elements (out.map span) = elements (acc.map span) ++ elements (runs.map span) := by
  induction runs generalizing acc with
  | nil =>
    obtain rfl := Except.ok.inj h
    exact ⟨hacc, by simp⟩
  | cons next runs ih =>
    obtain ⟨acc', hpush, hrest⟩ := except_bind_ok.mp h
    obtain ⟨hbehind, rfl⟩ := pushDisjointOwnershipRun_ok.mp hpush
    have hnext := hvalid next mem_cons_self
    have hacc' := hacc.push hnext hbehind
    rw [← map_span_joinRun] at hacc'
    obtain ⟨hout, helements⟩ := ih hacc' (fun r hr => hvalid r (mem_cons_of_mem _ hr)) hrest
    refine ⟨hout, ?_⟩
    rw [helements, map_span_joinRun, elements_push hacc.valid hnext]
    simp

theorem exists_pushRuns (hacc : Runs.Canonical Joined (acc.map span))
    (hvalid : ∀ run ∈ runs, Runs.Valid Joined run.span)
    (hordered : runs.Pairwise fun a b => a.span.2 < b.span.1)
    (hafter : ∀ p ∈ elements (acc.map span), ∀ run ∈ runs, p < run.span.1) :
    ∃ out, runs.foldlM pushDisjointOwnershipRun acc = .ok out := by
  induction runs generalizing acc with
  | nil => exact ⟨acc, rfl⟩
  | cons next runs ih =>
    have hnext := hvalid next mem_cons_self
    have hbehind : Runs.Behind (acc.map span) next.span :=
      hacc.behind_iff.mpr fun p hp => hafter p hp next mem_cons_self
    obtain ⟨hfirst, hordered⟩ := pairwise_cons.mp hordered
    have hacc' := hacc.push hnext hbehind
    rw [← map_span_joinRun] at hacc'
    obtain ⟨out, hout⟩ := ih hacc' (fun r hr => hvalid r (mem_cons_of_mem _ hr)) hordered (by
      intro p hp run hrun
      rw [map_span_joinRun, elements_push hacc.valid hnext] at hp
      rcases mem_append.mp hp with hp | hp
      · exact hafter p hp run (mem_cons_of_mem _ hrun)
      · obtain ⟨r, hr, -, hle⟩ := mem_elements.mp hp
        rw [mem_singleton.mp hr] at hle
        exact lt_of_le_of_lt hle (hfirst run hrun))
    exact ⟨out, except_bind_ok.mpr
      ⟨joinRun acc next, pushDisjointOwnershipRun_ok.mpr ⟨hbehind, rfl⟩, hout⟩⟩

end

theorem RecordedSampleOrderRun.sampleCount_eq {run : RecordedSampleOrderRun}
    (h : Runs.Valid Joined run.span) (hfits : run.span.2 + 1 - run.span.1 < 2 ^ 64) :
    run.sampleCount = .ok (run.span.2 + 1 - run.span.1) := by
  obtain ⟨first, last⟩ := run
  obtain ⟨hle, hjoined⟩ := h
  have hordinal := first.sampleOrdinal.toNat_lt
  have hordinal' := last.sampleOrdinal.toNat_lt
  simp only [span, position, RecordedSampleOrder.Joined] at hle hjoined hfits ⊢
  have hmessage : first.messageSequence.toNat = last.messageSequence.toNat := by
    by_contra hne
    -- the last ordinal of the first message would be inside the run
    have hinside := hjoined (first.messageSequence.toNat * 2 ^ 64 + (2 ^ 64 - 1))
    omega
  have hcount : last.sampleOrdinal.toNat - first.sampleOrdinal.toNat + 1 =
      last.messageSequence.toNat * 2 ^ 64 + last.sampleOrdinal.toNat + 1 -
        (first.messageSequence.toNat * 2 ^ 64 + first.sampleOrdinal.toNat) := by omega
  simp only [sampleCount, require_bind_ok, UInt64.le_iff_toNat_le, hcount]
  exact ⟨UInt64.toNat_inj.mp hmessage, ⟨by omega, hfits⟩, rfl⟩

namespace RecordedSampleOrderSet

theorem validateFrom_ok {runs : List RecordedSampleOrderRun} {n : ℕ}
    {previous : Option RecordedSampleOrderRun} (h : Runs.Canonical Joined (runs.map span))
    (hprevious : ∀ left ∈ previous, ∀ right ∈ runs.head?,
      left.span.2 < right.span.1 ∧ ¬Runs.Adjacent Joined left.span right.span)
    (hfits : n + (elements (runs.map span)).length < 2 ^ 64) :
    validateFrom n previous runs = .ok (n + (elements (runs.map span)).length) := by
  induction runs generalizing n previous with
  | nil => rfl
  | cons run runs ih =>
    have hvalid : Runs.Valid Joined run.span := h.valid run.span mem_cons_self
    rw [map_cons, elements_cons, length_append, length_range'] at hfits ⊢
    simp only [validateFrom, except_bind_ok, require_ok, exists_const]
    refine ⟨?_, ?_, _, run.sampleCount_eq hvalid (by omega), by omega, ?_⟩
    · cases previous with
      | none => simp
      | some left =>
        have := (hprevious left rfl run rfl).1
        simpa [le_iff_position, span] using this
    · cases previous with
      | none => simp
      | some left => simpa [rangesAreAdjacent_iff] using (hprevious left rfl run rfl).2
    rw [ih h.tail ?_ (by omega), add_assoc]
    intro left hleft right hright
    obtain rfl := Option.some.inj hleft
    exact (isChain_cons.mp h.apart).1 right.span (by
      rw [head?_map, hright, Option.map_some]
      rfl)

structure Sound (set : RecordedSampleOrderSet) : Prop extends Canonical set where
  fits : set.sampleCount < 2 ^ 64

variable {a b c s t : RecordedSampleOrderSet}

theorem Sound.validate_ok (h : s.Sound) : s.validate = .ok () := by
  have hcount := h.count
  have hfits := h.fits
  rw [positions, spans] at hcount
  have hruns := @validateFrom_ok s.runs 0 none h.runs (by simp) (by omega)
  simp only [validate, except_bind_ok, require_ok]
  exact ⟨_, hruns, by omega⟩

theorem Canonical.nodup (h : s.Canonical) : s.positions.Nodup :=
  h.runs.sorted.imp ne_of_lt

theorem Canonical.length_runs_le (h : s.Canonical) : s.runs.length ≤ s.sampleCount := by
  have hle := length_le_elements h.runs.valid
  rw [h.count]
  rwa [spans, length_map] at hle

theorem Canonical.ext_perm (hs : s.Canonical) (ht : t.Canonical)
    (h : s.positions.Perm t.positions) : s = t :=
  hs.ext ht (h.eq_of_pairwise (fun _ _ _ _ hab hba => absurd hab (lt_asymm hba))
    hs.runs.sorted ht.runs.sorted)

theorem mergedRuns_valid (ha : a.Canonical) (hb : b.Canonical) :
    ∀ run ∈ a.mergedRuns b, Runs.Valid Joined run.span := by
  intro run hrun
  rcases mem_merge.mp hrun with hrun | hrun
  · exact ha.runs.valid _ (mem_map_of_mem hrun)
  · exact hb.runs.valid _ (mem_map_of_mem hrun)

theorem Canonical.firsts_sorted (h : s.Canonical) :
    s.runs.Pairwise fun left right => left.first.le right.first = true := by
  refine (pairwise_map.mp h.runs.ordered).imp_of_mem fun hleft _ hlt => ?_
  have hle := (h.runs.valid _ (mem_map_of_mem hleft)).1
  exact le_iff_position.mpr (le_trans hle (le_of_lt hlt))

theorem mergedRuns_sorted (ha : a.Canonical) (hb : b.Canonical) :
    (a.mergedRuns b).Pairwise fun left right => left.span.1 ≤ right.span.1 := by
  refine (pairwise_merge (fun x y z hxy hyz => ?_) (fun x y => ?_) _ _ ha.firsts_sorted
    hb.firsts_sorted).imp fun h => le_iff_position.mp h
  · rw [le_iff_position] at hxy hyz ⊢
    exact le_trans hxy hyz
  · rw [Bool.or_eq_true, le_iff_position, le_iff_position]
    exact le_total _ _

theorem mergedRuns_perm (a b : RecordedSampleOrderSet) :
    (elements ((a.mergedRuns b).map span)).Perm (a.positions ++ b.positions) := by
  rw [positions, positions, ← elements_append, spans, spans, ← map_append]
  exact ((merge_perm_append _).map _).flatMap_right _

theorem union_of_pushRuns {runs : List RecordedSampleOrderRun} (ha : a.Canonical)
    (hb : b.Canonical) (h : (a.mergedRuns b).foldlM pushDisjointOwnershipRun [] = .ok runs) :
    (⟨runs, a.sampleCount + b.sampleCount⟩ : RecordedSampleOrderSet).Canonical ∧
      (elements (runs.map span)).Perm (a.positions ++ b.positions) := by
  obtain ⟨hruns, helements⟩ := pushRuns_ok canonical_nil (mergedRuns_valid ha hb) h
  have hperm : (elements (runs.map span)).Perm (a.positions ++ b.positions) :=
    helements ▸ mergedRuns_perm a b
  refine ⟨⟨hruns, ?_⟩, hperm⟩
  rw [positions, spans, hperm.length_eq, length_append, ha.count, hb.count]

theorem checkedUnion_ok {fault : Option IoError} (ha : a.Sound) (hb : b.Sound)
    (h : a.checkedUnion b fault = .ok s) :
    s.Sound ∧ s.positions.Perm (a.positions ++ b.positions) := by
  cases fault with
  | some error =>
    simp only [checkedUnion, except_bind_ok, require_ok, exists_const] at h
    obtain ⟨-, -, -, -, -, _, h, -⟩ := h
    cases h
  | none =>
    simp only [checkedUnion, except_bind_ok, require_ok, exists_const] at h
    obtain ⟨-, -, -, -, -, runs, hruns, hfits, -, -, h⟩ := h
    obtain rfl := Except.ok.inj h
    obtain ⟨hunion, hperm⟩ := union_of_pushRuns ha.toCanonical hb.toCanonical hruns
    exact ⟨⟨hunion, hfits⟩, hperm⟩

theorem exists_checkedUnion (ha : a.Sound) (hb : b.Sound)
    (hnodup : (a.positions ++ b.positions).Nodup) (hfits : a.sampleCount + b.sampleCount < 2 ^ 64) :
    ∃ s, a.checkedUnion b none = .ok s := by
  have hvalid := mergedRuns_valid ha.toCanonical hb.toCanonical
  have hspans : ∀ run ∈ (a.mergedRuns b).map span, Runs.Valid Joined run :=
    forall_mem_map.mpr hvalid
  have hsorted : ((a.mergedRuns b).map span).Pairwise fun left right => left.1 ≤ right.1 :=
    pairwise_map.mpr (mergedRuns_sorted ha.toCanonical hb.toCanonical)
  have hordered := ordered_of_nodup hspans hsorted
    ((mergedRuns_perm a b).nodup_iff.mpr hnodup)
  rw [pairwise_map] at hordered
  obtain ⟨runs, hruns⟩ := @exists_pushRuns _ [] canonical_nil hvalid hordered (by simp)
  have hunion := (union_of_pushRuns ha.toCanonical hb.toCanonical hruns).1
  have hlength := ha.length_runs_le
  have hlength' := hb.length_runs_le
  refine ⟨⟨runs, a.sampleCount + b.sampleCount⟩, ?_⟩
  simp only [checkedUnion, except_bind_ok, require_ok, exists_const]
  exact ⟨(), ha.validate_ok, (), hb.validate_ok, by omega, runs, hruns, hfits, (),
    Sound.validate_ok ⟨hunion, hfits⟩, rfl⟩

theorem tryPrepareAppend_iff {order : RecordedSampleOrder} (hs : s.Canonical) :
    (∃ prepared, s.tryPrepareAppend order none = .ok prepared) ↔
      (∀ p ∈ s.positions, p < order.position) ∧ s.sampleCount + 1 < 2 ^ 64 := by
  have hbehind : Runs.Behind s.spans (order.position, order.position) ↔
      ∀ p ∈ s.positions, p < order.position := hs.runs.behind_iff
  constructor
  · rintro ⟨prepared, h⟩
    obtain ⟨-, h, hcount⟩ := tryPrepareAppend_ok h
    exact ⟨hbehind.mp h, hcount⟩
  rintro ⟨hall, hcount⟩
  have hany := (@not_any_iff_behind s.runs ⟨order, order⟩).mpr (hbehind.mpr hall)
  simp only [tryPrepareAppend, require_bind_ok, Option.any_map]
  exact ⟨⟨order, s.sampleCount + 1, _⟩, hany, hcount, ite_self _⟩

section
variable {first : RecordedSampleOrderRun} {rest : List RecordedSampleOrderRun}

theorem positions_of_cons (hruns : s.runs = first :: rest) :
    s.positions = elements (first.span :: rest.map span) := by
  rw [positions, spans, hruns, map_cons]

theorem Canonical.behind_first_iff (ha : a.Canonical) (hb : b.Canonical)
    (hruns : b.runs = first :: rest) :
    Runs.Behind a.spans first.span ↔ ∀ p ∈ a.positions, ∀ q ∈ b.positions, p < q := by
  have hspans : Runs.Canonical Joined (first.span :: rest.map span) := by
    have hspans := hb.runs
    rwa [spans, hruns] at hspans
  have hfirst := (hspans.valid _ mem_cons_self).1
  rw [positions_of_cons hruns, ha.runs.behind_iff]
  refine forall₂_congr fun p _ => ⟨fun hp q hq => ?_, fun hall => ?_⟩
  · rw [elements_cons, mem_append, mem_range'_1] at hq
    rcases hq with hq | hq
    · omega
    · have := hspans.lt_of_mem hq
      omega
  · exact hall _ (mem_elements.mpr ⟨_, mem_cons_self, le_refl _, hfirst⟩)

end

theorem checkAppend_ok {spare n : ℕ} (ha : a.Sound) (hb : b.Sound) :
    a.checkAppend spare b = .ok n ↔ (∀ p ∈ a.positions, ∀ q ∈ b.positions, p < q) ∧
      a.sampleCount + b.sampleCount < 2 ^ 64 ∧ a.additionalRuns b ≤ spare ∧
        a.sampleCount + b.sampleCount = n := by
  have hfits := ha.fits
  have hcount := hb.count
  cases hruns : b.runs with
  | nil =>
    have hpositions : b.positions = [] := by rw [positions, spans, hruns]; rfl
    rw [hpositions, length_nil] at hcount
    have hok : a.checkAppend spare b = .ok a.sampleCount := by
      simp only [checkAppend, ha.validate_ok, hb.validate_ok, isEmpty, hruns]
      rfl
    rw [hok, Except.ok.injEq, hpositions, hcount, add_zero]
    exact ⟨fun h => ⟨by simp, hfits, by simp [additionalRuns, hruns], h⟩, fun h => h.2.2.2⟩
  | cons first rest =>
    rw [← ha.behind_first_iff hb.toCanonical hruns, spans, ← not_any_iff_behind]
    have hsome : b.isEmpty = false := by rw [isEmpty, hruns]; rfl
    simp only [checkAppend, ha.validate_ok, hb.validate_ok, hsome, hruns, except_bind_ok,
      require_ok, except_pure_ok, exists_const, true_and, Bool.false_eq_true, if_false,
      head?_cons, Option.any_some]

theorem appendPreReserved_ok {spare : ℕ} (ha : a.Sound) (hb : b.Sound)
    (h : a.appendPreReserved spare b = (.ok (), s)) :
    s.Sound ∧ s.positions = a.positions ++ b.positions := by
  unfold appendPreReserved at h
  split at h
  · cases congrArg Prod.fst h
  · rename_i hruns
    obtain rfl := congrArg Prod.snd h
    have hpositions : b.positions = [] := by rw [positions, spans, hruns]; rfl
    rw [hpositions, append_nil]
    exact ⟨ha, rfl⟩
  rename_i n first rest hcheck hruns
  obtain rfl := congrArg Prod.snd h
  obtain ⟨hall, hfits, -, rfl⟩ := (checkAppend_ok ha hb).mp hcheck
  have hbehind := (ha.behind_first_iff hb.toCanonical hruns).mpr hall
  have hb' := hb.runs
  rw [spans, hruns] at hb'
  have hjoin := ha.runs.join hb' hbehind
  have hpositions : elements ((joinRun a.runs first ++ rest).map span) =
      a.positions ++ b.positions := by
    rw [map_append, map_span_joinRun, elements_append, ← spans,
      elements_push ha.runs.valid (hb'.valid _ mem_cons_self),
      positions_of_cons hruns, positions]
    simp
  rw [spans, ← map_span_joinRun, ← map_append] at hjoin
  refine ⟨⟨⟨hjoin, ?_⟩, hfits⟩, hpositions⟩
  rw [positions, spans, hpositions, length_append, ha.count, hb.count]

/-- Sets made by calls that succeed, each with the orders that were added. -/
inductive Built : RecordedSampleOrderSet → List RecordedSampleOrder → Prop
  | empty : Built empty []
  | append {set added order fault prepared} : Built set added →
      set.tryPrepareAppend order fault = .ok prepared →
      Built (set.commitPreparedAppend prepared) (added ++ [order])
  | appendPreReserved {set added other added' spare out} : Built set added → Built other added' →
      set.appendPreReserved spare other = (.ok (), out) → Built out (added ++ added')
  | checkedUnion {set added other added' fault out} : Built set added → Built other added' →
      set.checkedUnion other fault = .ok out → Built out (added ++ added')

variable {added added' added'' : List RecordedSampleOrder}

section
variable (h : Built s added)
include h

theorem Built.sound : s.Sound ∧ s.positions.Perm (added.map position) := by
  induction h with
  | empty => exact ⟨⟨canonical_empty, by decide⟩, .nil⟩
  | append _ hok ih =>
    obtain ⟨hs, hperm⟩ := ih
    obtain ⟨hprepared, -, hcount⟩ := tryPrepareAppend_ok hok
    refine ⟨⟨hs.toCanonical.commitPreparedAppend hok, ?_⟩, ?_⟩
    · rw [hprepared]
      exact hcount
    · rw [positions_commitPreparedAppend hs.toCanonical hok, map_append]
      exact hperm.append_right _
  | appendPreReserved _ _ hok ih ih' =>
    obtain ⟨hout, hpositions⟩ := appendPreReserved_ok ih.1 ih'.1 hok
    rw [hpositions, map_append]
    exact ⟨hout, ih.2.append ih'.2⟩
  | checkedUnion _ _ hok ih ih' =>
    obtain ⟨hout, hperm⟩ := checkedUnion_ok ih.1 ih'.1 hok
    rw [map_append]
    exact ⟨hout, hperm.trans (ih.2.append ih'.2)⟩

theorem Built.mem_iff {order : RecordedSampleOrder} :
    order.position ∈ s.positions ↔ order ∈ added := by
  rw [h.sound.2.mem_iff, mem_map]
  constructor
  · rintro ⟨order', hmem, heq⟩
    exact position_inj heq ▸ hmem
  · intro hmem
    exact ⟨order, hmem, rfl⟩

theorem Built.forall_iff {P : ℕ → Prop} :
    (∀ p ∈ s.positions, P p) ↔ ∀ order ∈ added, P order.position := by
  constructor
  · intro hall order horder
    exact hall _ (h.mem_iff.mpr horder)
  · intro hall p hp
    obtain ⟨order, horder, rfl⟩ := mem_map.mp (h.sound.2.mem_iff.mp hp)
    exact hall order horder

theorem Built.length_eq : s.sampleCount = added.length := by
  rw [h.sound.1.count, h.sound.2.length_eq, length_map]

theorem Built.nodup : added.Nodup :=
  Nodup.of_map _ (h.sound.2.nodup_iff.mp h.sound.1.nodup)

end

theorem Built.eq_of_perm (hs : Built s added) (ht : Built t added') (h : added.Perm added') :
    s = t :=
  hs.sound.1.ext_perm ht.sound.1.toCanonical
    (hs.sound.2.trans ((h.map _).trans ht.sound.2.symm))

theorem Built.checkedUnion_iff (ha : Built a added) (hb : Built b added') :
    (∃ s, a.checkedUnion b none = .ok s) ↔
      added.Disjoint added' ∧ added.length + added'.length < 2 ^ 64 := by
  constructor
  · rintro ⟨s, h⟩
    have hs := Built.checkedUnion ha hb h
    have hfits := hs.sound.1.fits
    rw [hs.length_eq, length_append] at hfits
    exact ⟨(nodup_append'.mp hs.nodup).2.2, hfits⟩
  rintro ⟨hdisjoint, hfits⟩
  have hnodup : (added ++ added').Nodup := ha.nodup.append hb.nodup hdisjoint
  have hmap := hnodup.map fun _ _ => position_inj
  rw [map_append] at hmap
  rw [← ha.length_eq, ← hb.length_eq] at hfits
  exact exists_checkedUnion ha.sound.1 hb.sound.1
    ((ha.sound.2.append hb.sound.2).nodup_iff.mpr hmap) hfits

theorem Built.checkedUnion_eq (ha : Built a added) (hb : Built b added') (hs : Built s added'')
    (hperm : added''.Perm (added ++ added')) : a.checkedUnion b none = .ok s := by
  have hfits := hs.sound.1.fits
  rw [hs.length_eq, hperm.length_eq, length_append] at hfits
  obtain ⟨t, ht⟩ := (ha.checkedUnion_iff hb).mpr
    ⟨(nodup_append'.mp (hperm.nodup_iff.mp hs.nodup)).2.2, hfits⟩
  rw [ht, (Built.checkedUnion ha hb ht).eq_of_perm hs hperm.symm]

theorem Built.checkedUnion_comm (ha : Built a added) (hb : Built b added')
    (h : a.checkedUnion b none = .ok s) : b.checkedUnion a none = .ok s :=
  hb.checkedUnion_eq ha (.checkedUnion ha hb h) perm_append_comm

theorem Built.checkedUnion_assoc (ha : Built a added) (hb : Built b added')
    (hc : Built c added'') {ab : RecordedSampleOrderSet} (hab : a.checkedUnion b none = .ok ab)
    (h : ab.checkedUnion c none = .ok s) :
    ∃ bc, b.checkedUnion c none = .ok bc ∧ a.checkedUnion bc none = .ok s := by
  have hs := Built.checkedUnion (.checkedUnion ha hb hab) hc h
  rw [append_assoc] at hs
  have hfits := hs.sound.1.fits
  rw [hs.length_eq, length_append, length_append] at hfits
  have hnodup := (nodup_append'.mp hs.nodup).2.1
  obtain ⟨bc, hbc⟩ := (hb.checkedUnion_iff hc).mpr
    ⟨(nodup_append'.mp hnodup).2.2, by omega⟩
  exact ⟨bc, hbc, ha.checkedUnion_eq (.checkedUnion hb hc hbc) hs (.refl _)⟩

theorem le_eq_false_iff {order held : RecordedSampleOrder} :
    order.le held = false ↔ held.position < order.position := by
  rw [Bool.eq_false_iff, Ne, le_iff_position, not_le]

theorem Built.tryAppendOrder_iff (ha : Built a added) {order : RecordedSampleOrder} :
    (a.tryAppendOrder order none).1 = .ok () ↔
      (∀ held ∈ added, order.le held = false) ∧ added.length + 1 < 2 ^ 64 := by
  have hiff := @tryPrepareAppend_iff a order ha.sound.1.toCanonical
  simp only [ha.forall_iff, ha.length_eq, ← le_eq_false_iff] at hiff
  rw [← hiff, tryAppendOrder]
  cases a.tryPrepareAppend order none <;> simp

theorem Built.appendPreReserved_iff (ha : Built a added) (hb : Built b added') {spare : ℕ} :
    (a.appendPreReserved spare b).1 = .ok () ↔
      (∀ held ∈ added, ∀ order ∈ added', order.le held = false) ∧
        added.length + added'.length < 2 ^ 64 ∧ a.additionalRuns b ≤ spare := by
  have hiff := fun n => @checkAppend_ok a b spare n ha.sound.1 hb.sound.1
  simp only [ha.forall_iff, hb.forall_iff, ha.length_eq, hb.length_eq, ← le_eq_false_iff] at hiff
  unfold RecordedSampleOrderSet.appendPreReserved
  split
  · rename_i error hcheck
    rw [hcheck] at hiff
    refine ⟨fun h => (by cases h), fun h => absurd ((hiff _).mpr ⟨h.1, h.2.1, h.2.2, rfl⟩) ?_⟩
    exact nofun
  all_goals
    rename_i hcheck _
    obtain ⟨hall, hfits, hspare, -⟩ := (hiff _).mp hcheck
    exact ⟨fun _ => ⟨hall, hfits, hspare⟩, fun _ => rfl⟩

theorem orderSet_represents (ha : Built a added) (hb : Built b added') (hc : Built c added'') :
    (∀ order, a.Contains order ↔ order ∈ added) ∧
    (added.Nodup ∧ a.sampleCount = added.length) ∧
    ((∀ order, order ∈ added ↔ order ∈ added') → a = b) ∧
    ((∃ s, a.checkedUnion b none = .ok s) ↔
      added.Disjoint added' ∧ added.length + added'.length < 2 ^ 64) ∧
    (∀ s, a.checkedUnion b none = .ok s ↔ b.checkedUnion a none = .ok s) ∧
    (∀ s, (∃ ab, a.checkedUnion b none = .ok ab ∧ ab.checkedUnion c none = .ok s) ↔
      ∃ bc, b.checkedUnion c none = .ok bc ∧ a.checkedUnion bc none = .ok s) ∧
    (∀ order, (a.tryAppendOrder order none).1 = .ok () ↔
      (∀ held ∈ added, order.le held = false) ∧ added.length + 1 < 2 ^ 64) ∧
    (∀ spare, (a.appendPreReserved spare b).1 = .ok () ↔
      (∀ held ∈ added, ∀ order ∈ added', order.le held = false) ∧
        added.length + added'.length < 2 ^ 64 ∧ a.additionalRuns b ≤ spare) ∧
    (∀ order fault error, (a.tryAppendOrder order fault).1 = .error error →
      (a.tryAppendOrder order fault).2 = a) ∧
    ∀ spare error, (a.appendPreReserved spare b).1 = .error error →
      (a.appendPreReserved spare b).2 = a := by
  refine ⟨fun order => contains_iff.trans ha.mem_iff, ⟨ha.nodup, ha.length_eq⟩, fun hsame => ?_,
    ha.checkedUnion_iff hb, fun s => ⟨ha.checkedUnion_comm hb, hb.checkedUnion_comm ha⟩,
    fun s => ⟨?_, ?_⟩, fun _ => ha.tryAppendOrder_iff, fun _ => ha.appendPreReserved_iff hb,
    fun order fault error h => ?_, fun spare error h => ?_⟩
  · exact ha.eq_of_perm hb ((perm_ext_iff_of_nodup ha.nodup hb.nodup).mpr hsame)
  · rintro ⟨ab, hab, h⟩
    exact ha.checkedUnion_assoc hb hc hab h
  · rintro ⟨bc, hbc, h⟩
    -- the same with the sets in the other order
    have hbc' := Built.checkedUnion hb hc hbc
    obtain ⟨ba, hba, h'⟩ := hc.checkedUnion_assoc hb ha (hb.checkedUnion_comm hc hbc)
      (ha.checkedUnion_comm hbc' h)
    exact ⟨ba, hb.checkedUnion_comm ha hba, hc.checkedUnion_comm (.checkedUnion hb ha hba) h'⟩
  · unfold tryAppendOrder at h ⊢
    split at h
    · rfl
    · cases h
  unfold appendPreReserved at h ⊢
  split at h
  · rfl
  all_goals cases h

theorem Built.appends {orders : List RecordedSampleOrder} (h : Built s added)
    (hok : orders.foldlM (fun set order => do
      return set.commitPreparedAppend (← set.tryPrepareAppend order none)) s = .ok t) :
    Built t (added ++ orders) := by
  induction orders generalizing s added with
  | nil =>
    obtain rfl := Except.ok.inj hok
    rwa [append_nil]
  | cons order orders ih =>
    obtain ⟨next, hnext, hrest⟩ := except_bind_ok.mp hok
    obtain ⟨prepared, hprepared, hcommit⟩ := except_bind_ok.mp hnext
    obtain rfl := Except.ok.inj hcommit
    have hbuilt := ih (.append h hprepared) hrest
    rwa [append_assoc] at hbuilt

/-- Three sets with gaps that the others fill: the unions in both orders are one run. -/
theorem orderSet_represents_coalescing :
    let a : RecordedSampleOrderSet := ⟨[⟨⟨0, 0⟩, ⟨0, 0⟩⟩, ⟨⟨0, 2⟩, ⟨0, 2⟩⟩], 2⟩
    let b : RecordedSampleOrderSet := ⟨[⟨⟨0, 1⟩, ⟨0, 1⟩⟩, ⟨⟨0, 5⟩, ⟨0, 5⟩⟩], 2⟩
    let c : RecordedSampleOrderSet := ⟨[⟨⟨0, 3⟩, ⟨0, 4⟩⟩], 2⟩
    Built a [⟨0, 0⟩, ⟨0, 2⟩] ∧ Built b [⟨0, 1⟩, ⟨0, 5⟩] ∧ Built c [⟨0, 3⟩, ⟨0, 4⟩] ∧
      (∃ ab, a.checkedUnion b none = .ok ab ∧
        ab.checkedUnion c none = .ok ⟨[⟨⟨0, 0⟩, ⟨0, 5⟩⟩], 6⟩) ∧
      (∃ bc, b.checkedUnion c none = .ok bc ∧
        a.checkedUnion bc none = .ok ⟨[⟨⟨0, 0⟩, ⟨0, 5⟩⟩], 6⟩) ∧
      (a.tryAppendOrder ⟨0, 1⟩ none).1 ≠ .ok () ∧ (a.appendPreReserved 0 c).1 = .ok () := by
  intro a b c
  have ha : Built a [⟨0, 0⟩, ⟨0, 2⟩] := Built.appends .empty rfl
  have hb : Built b [⟨0, 1⟩, ⟨0, 5⟩] := Built.appends .empty rfl
  have hc : Built c [⟨0, 3⟩, ⟨0, 4⟩] := Built.appends .empty rfl
  have hwhole : Built ⟨[⟨⟨0, 0⟩, ⟨0, 5⟩⟩], 6⟩
      [⟨0, 0⟩, ⟨0, 1⟩, ⟨0, 2⟩, ⟨0, 3⟩, ⟨0, 4⟩, ⟨0, 5⟩] := Built.appends .empty rfl
  obtain ⟨-, -, -, hunion, -, hassoc, happend, -⟩ := orderSet_represents ha hb hc
  obtain ⟨ab, hab⟩ := hunion.mpr ⟨by simp, by decide⟩
  have hleft : ab.checkedUnion c none = .ok ⟨[⟨⟨0, 0⟩, ⟨0, 5⟩⟩], 6⟩ :=
    (Built.checkedUnion ha hb hab).checkedUnion_eq hc hwhole (by decide)
  obtain ⟨-, -, -, -, -, -, -, hreserved, -⟩ := orderSet_represents ha hc hb
  refine ⟨ha, hb, hc, ⟨ab, hab, hleft⟩, (hassoc _).mp ⟨ab, hab, hleft⟩, ?_,
    (hreserved 0).mpr (by decide)⟩
  rw [Ne, happend]
  decide

theorem exists_built_message (n : ℕ) (hn : n < 2 ^ 64) :
    ∃ set added, Built set added ∧ added.length = n ∧ ∀ order ∈ added, order.position < n := by
  induction n with
  | zero => exact ⟨empty, [], .empty, rfl, fun _ h => (by cases h)⟩
  | succ n ih =>
    obtain ⟨set, added, hset, hlength, hbelow⟩ := ih (by omega)
    have hposition : (RecordedSampleOrder.mk 0 (UInt64.ofNat n)).position = n := by
      have hordinal : (UInt64.ofNat n).toNat = n := UInt64.toNat_ofNat_of_lt' (lt_of_succ_lt hn)
      rw [RecordedSampleOrder.position, hordinal]
      simp
    have hiff := @tryPrepareAppend_iff set ⟨0, UInt64.ofNat n⟩ hset.sound.1.toCanonical
    rw [hset.forall_iff, hposition, hset.length_eq, hlength] at hiff
    obtain ⟨prepared, hok⟩ := hiff.mpr ⟨hbelow, hn⟩
    refine ⟨_, _, .append hset hok, by rw [length_append, hlength]; rfl,
      forall_mem_append.mpr ⟨fun order horder => lt_succ_of_lt (hbelow order horder),
        forall_mem_singleton.mpr ?_⟩⟩
    rw [hposition]
    exact lt_succ_self n

/-- A set of as many orders as its field can count takes no greater one. -/
theorem orderSet_full : ∃ set added order, Built set added ∧
    (∀ held ∈ added, order.le held = false) ∧
      (set.tryAppendOrder order none).1 ≠ .ok () := by
  obtain ⟨set, added, hset, hlength, hbelow⟩ := exists_built_message (2 ^ 64 - 1) (by decide)
  refine ⟨set, added, ⟨1, 0⟩, hset, fun held hheld => ?_, fun h => ?_⟩
  · rw [le_eq_false_iff]
    refine lt_trans (hbelow held hheld) ?_
    decide
  · have hfits := (hset.tryAppendOrder_iff.mp h).2
    rw [hlength] at hfits
    exact absurd hfits (by decide)

end RecordedSampleOrderSet

end Chronoxide
