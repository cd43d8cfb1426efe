import Mathlib.Data.List.Chain
import Mathlib.Data.List.Range
import Mathlib.Tactic.Common

/-! Finite sets of naturals as lists of inclusive runs. Two neighbours of a set are in one run where
`joined` says so of the smaller one; a canonical list is determined by its elements. -/

namespace Runs
open List

def elements (runs : List (ℕ × ℕ)) : List ℕ :=
  runs.flatMap fun run => range' run.1 (run.2 + 1 - run.1)

@[simp] theorem elements_nil : elements [] = [] := rfl

@[simp] theorem elements_cons (run : ℕ × ℕ) (runs : List (ℕ × ℕ)) :
    elements (run :: runs) = range' run.1 (run.2 + 1 - run.1) ++ elements runs :=
  flatMap_cons ..

@[simp] theorem elements_append (front back : List (ℕ × ℕ)) :
    elements (front ++ back) = elements front ++ elements back :=
  flatMap_append ..

variable {runs runs' : List (ℕ × ℕ)}

theorem mem_elements {p : ℕ} : p ∈ elements runs ↔ ∃ run ∈ runs, run.1 ≤ p ∧ p ≤ run.2 := by
  simp only [elements, mem_flatMap, mem_range'_1]
  refine exists_congr fun run => and_congr_right fun _ => ?_
  omega

theorem range'_join {lo hi hi' : ℕ} (h : lo ≤ hi) (h' : hi + 1 ≤ hi') :
    range' lo (hi' + 1 - lo) =
      range' lo (hi + 1 - lo) ++ range' (hi + 1) (hi' + 1 - (hi + 1)) := by
  have hsplit : hi' + 1 - lo = (hi + 1 - lo) + (hi' + 1 - (hi + 1)) := by omega
  rw [hsplit, ← range'_append_1, show lo + (hi + 1 - lo) = hi + 1 by omega]

variable {joined : ℕ → Prop}

def Adjacent (joined : ℕ → Prop) (a b : ℕ × ℕ) : Prop := joined a.2 ∧ a.2 + 1 = b.1

/-- A run is not empty and not to be cut. -/
def Valid (joined : ℕ → Prop) (run : ℕ × ℕ) : Prop :=
  run.1 ≤ run.2 ∧ ∀ p, run.1 ≤ p → p < run.2 → joined p

/-- Increasing runs, none of which continues the one before it. -/
structure Canonical (joined : ℕ → Prop) (runs : List (ℕ × ℕ)) : Prop where
  valid : ∀ run ∈ runs, Valid joined run
  apart : runs.IsChain fun a b => a.2 < b.1 ∧ ¬ Adjacent joined a b

theorem canonical_nil : Canonical joined [] := ⟨fun _ h => (by cases h), .nil⟩

theorem Canonical.tail {run : ℕ × ℕ} (h : Canonical joined (run :: runs)) : Canonical joined runs :=
  ⟨fun r hr => h.valid r (mem_cons_of_mem _ hr), h.apart.tail⟩

theorem Canonical.lt_of_mem {run : ℕ × ℕ} (h : Canonical joined (run :: runs))
    {p : ℕ} (hp : p ∈ elements runs) : run.2 < p := by
  induction runs generalizing run with
  | nil => cases hp
  | cons next runs ih =>
    have hnext := (isChain_cons_cons.mp h.apart).1.1
    rw [elements_cons, mem_append, mem_range'_1] at hp
    rcases hp with hp | hp
    · omega
    · have hle := (h.tail.valid next mem_cons_self).1
      have := ih h.tail hp
      omega

theorem Canonical.ordered (h : Canonical joined runs) : runs.Pairwise fun a b => a.2 < b.1 := by
  induction runs with
  | nil => exact .nil
  | cons run runs ih =>
    refine pairwise_cons.mpr ⟨fun next hnext => ?_, ih h.tail⟩
    have hle := (h.tail.valid next hnext).1
    exact h.lt_of_mem (mem_elements.mpr ⟨next, hnext, Nat.le_refl _, hle⟩)

theorem Canonical.sorted (h : Canonical joined runs) : (elements runs).Pairwise (· < ·) := by
  induction runs with
  | nil => exact .nil
  | cons run runs ih =>
    rw [elements_cons, pairwise_append]
    refine ⟨pairwise_lt_range', ih h.tail, fun p hp q hq => ?_⟩
    have := h.lt_of_mem hq
    rw [mem_range'_1] at hp
    omega

theorem length_le_elements (h : ∀ run ∈ runs, Valid joined run) :
    runs.length ≤ (elements runs).length := by
  induction runs with
  | nil => exact Nat.le_refl 0
  | cons run runs ih =>
    have hle := (h run mem_cons_self).1
    have htail := ih fun r hr => h r (mem_cons_of_mem _ hr)
    rw [elements_cons, length_append, length_range', length_cons]
    omega

theorem ordered_of_nodup (hvalid : ∀ run ∈ runs, Valid joined run)
    (hsorted : runs.Pairwise fun a b => a.1 ≤ b.1) (hnodup : (elements runs).Nodup) :
    runs.Pairwise fun a b => a.2 < b.1 := by
  induction runs with
  | nil => exact .nil
  | cons run runs ih =>
    obtain ⟨hfirst, hsorted⟩ := pairwise_cons.mp hsorted
    rw [elements_cons, nodup_append] at hnodup
    obtain ⟨-, hrest, hdisjoint⟩ := hnodup
    have htail : ∀ r ∈ runs, Valid joined r := fun r hr => hvalid r (mem_cons_of_mem _ hr)
    refine pairwise_cons.mpr ⟨fun next hnext => ?_, ih htail hsorted hrest⟩
    by_contra hover
    have hmem : next.1 ∈ elements runs :=
      mem_elements.mpr ⟨next, hnext, Nat.le_refl _, (htail next hnext).1⟩
    have hle := hfirst next hnext
    exact hdisjoint next.1 (mem_range'_1.mpr ⟨hle, by omega⟩) next.1 hmem rfl

theorem elements_ne_nil {run : ℕ × ℕ} (h : Valid joined run) : elements (run :: runs) ≠ [] := by
  have hle := h.1
  rw [elements_cons, show run.2 + 1 - run.1 = (run.2 - run.1) + 1 by omega, range'_succ]
  exact cons_ne_nil _ _

theorem Canonical.last_le {lo : ℕ} {hi hi' : ℕ}
    (h : Canonical joined ((lo, hi) :: runs)) (h' : Canonical joined ((lo, hi') :: runs'))
    (heq : elements ((lo, hi) :: runs) = elements ((lo, hi') :: runs')) : hi' ≤ hi := by
  by_contra hlt
  -- the next element is in the second list, within its first run
  have hlo : lo ≤ hi := (h.valid (lo, hi) mem_cons_self).1
  have hjoined : joined hi :=
    (h'.valid (lo, hi') mem_cons_self).2 hi hlo (by simpa using hlt)
  have hmem : hi + 1 ∈ elements ((lo, hi) :: runs) := by
    rw [heq, elements_cons, mem_append, mem_range'_1]
    exact .inl ⟨by omega, by simp only; omega⟩
  rw [elements_cons, mem_append, mem_range'_1] at hmem
  rcases hmem with hmem | hmem
  · simp only at hmem
    omega
  cases runs with
  | nil => cases hmem
  | cons next runs =>
    obtain ⟨⟨hnext, hnot⟩, -⟩ := isChain_cons_cons.mp h.apart
    rw [elements_cons, mem_append, mem_range'_1] at hmem
    rcases hmem with hmem | hmem
    · exact hnot ⟨hjoined, by simp only at hnext ⊢; omega⟩
    · have hle := (h.tail.valid next mem_cons_self).1
      have := h.tail.lt_of_mem hmem
      omega

theorem Canonical.ext (h : Canonical joined runs)
    (h' : Canonical joined runs') (heq : elements runs = elements runs') : runs = runs' := by
  induction runs generalizing runs' with
  | nil =>
    cases runs' with
    | nil => rfl
    | cons run' runs' =>
      exact absurd heq.symm (elements_ne_nil (h'.valid run' mem_cons_self))
  | cons run runs ih =>
    cases runs' with
    | nil => exact absurd heq (elements_ne_nil (h.valid run mem_cons_self))
    | cons run' runs' =>
      obtain ⟨lo, hi⟩ := run
      obtain ⟨lo', hi'⟩ := run'
      have hlo : lo ≤ hi := (h.valid (lo, hi) mem_cons_self).1
      have hlo' : lo' ≤ hi' := (h'.valid (lo', hi') mem_cons_self).1
      have hfirst : lo = lo' := by
        have hhead := congrArg head? heq
        rw [elements_cons, elements_cons, show hi + 1 - lo = (hi - lo) + 1 by omega,
          show hi' + 1 - lo' = (hi' - lo') + 1 by omega, range'_succ, range'_succ] at hhead
        exact Option.some.inj hhead
      subst hfirst
      have hlast : hi = hi' := Nat.le_antisymm (h'.last_le h heq.symm) (h.last_le h' heq)
      subst hlast
      rw [ih h.tail h'.tail (append_cancel_left heq)]

variable (joined) [DecidablePred joined]

instance (a b : ℕ × ℕ) : Decidable (Adjacent joined a b) :=
  inferInstanceAs (Decidable (_ ∧ _))

/-- The last run is made longer where the next one continues it. -/
def push (runs : List (ℕ × ℕ)) (next : ℕ × ℕ) : List (ℕ × ℕ) :=
  match runs.getLast? with
  | some last =>
    if Adjacent joined last next then runs.dropLast ++ [(last.1, next.2)] else runs ++ [next]
  | none => [next]

variable {joined}

def Behind (runs : List (ℕ × ℕ)) (next : ℕ × ℕ) : Prop := ∀ last ∈ runs.getLast?, last.2 < next.1

theorem push_concat (front : List (ℕ × ℕ)) (last next : ℕ × ℕ) :
    push joined (front ++ [last]) next =
      if Adjacent joined last next then front ++ [(last.1, next.2)]
      else front ++ [last] ++ [next] := by
  rw [push, getLast?_concat, dropLast_concat]

variable {next : ℕ × ℕ}

theorem elements_push (hvalid : ∀ run ∈ runs, Valid joined run) (hnext : Valid joined next) :
    elements (push joined runs next) = elements runs ++ elements [next] := by
  rcases eq_nil_or_concat runs with rfl | ⟨front, last, rfl⟩
  · rfl
  rw [concat_eq_append] at hvalid ⊢
  rw [push_concat]
  split
  · rename_i hadj
    have hlast := (hvalid last (by simp)).1
    have hle := hnext.1
    obtain ⟨-, hcont⟩ := hadj
    simp only [elements_append, elements_cons, elements_nil, append_nil, append_assoc]
    rw [range'_join hlast (by omega), hcont]
  · rw [elements_append]

theorem Canonical.push (h : Canonical joined runs) (hnext : Valid joined next)
    (hbehind : Behind runs next) : Canonical joined (push joined runs next) := by
  rcases eq_nil_or_concat runs with rfl | ⟨front, last, rfl⟩
  · exact ⟨forall_mem_singleton.mpr hnext, .singleton _⟩
  rw [concat_eq_append] at h hbehind ⊢
  have hlast : last.2 < next.1 := hbehind last (by simp)
  have hlastValid := h.valid last (by simp)
  rw [push_concat]
  split
  · rename_i hadj
    obtain ⟨hjoin, hcont⟩ := hadj
    refine ⟨fun run hrun => ?_, ?_⟩
    · rcases mem_append.mp hrun with hrun | hrun
      · exact h.valid run (mem_append_left _ hrun)
      rw [mem_singleton.mp hrun]
      refine ⟨by have := hlastValid.1; have := hnext.1; simp only; omega, fun p hlo hhi => ?_⟩
      -- inside the last run, at its end, or inside the new one
      rcases Nat.lt_trichotomy p last.2 with hp | hp | hp
      · exact hlastValid.2 p hlo hp
      · exact hp ▸ hjoin
      · exact hnext.2 p (by omega) hhi
    · have happ := isChain_append.mp h.apart
      refine isChain_append.mpr ⟨happ.1, .singleton _, fun a ha b hb => ?_⟩
      obtain rfl := Option.some.inj hb
      exact happ.2.2 a ha last rfl
  rename_i hnot
  refine ⟨forall_mem_append.mpr ⟨h.valid, forall_mem_singleton.mpr hnext⟩, ?_⟩
  · refine isChain_append.mpr ⟨h.apart, .singleton _, fun a ha b hb => ?_⟩
    rw [getLast?_concat] at ha
    obtain rfl := Option.some.inj ha
    obtain rfl := Option.some.inj hb
    exact ⟨hlast, hnot⟩

omit [DecidablePred joined] in
theorem Canonical.behind_iff (h : Canonical joined runs) :
    Behind runs next ↔ ∀ p ∈ elements runs, p < next.1 := by
  rcases eq_nil_or_concat runs with rfl | ⟨front, last, rfl⟩
  · simp [Behind]
  rw [concat_eq_append] at h ⊢
  have hlast : last.2 ∈ elements [last] :=
    mem_elements.mpr ⟨last, mem_cons_self, (h.valid last (by simp)).1, Nat.le_refl _⟩
  constructor
  · intro hbehind p hp
    have hlt : last.2 < next.1 := hbehind last (by simp)
    have hsorted := h.sorted
    rw [elements_append] at hsorted hp
    rcases mem_append.mp hp with hp | hp
    · have := (pairwise_append.mp hsorted).2.2 p hp last.2 hlast
      omega
    · obtain ⟨run, hrun, -, hle⟩ := mem_elements.mp hp
      rw [mem_singleton.mp hrun] at hle
      omega
  · intro hall run hrun
    rw [getLast?_concat] at hrun
    obtain rfl := Option.some.inj hrun
    exact hall last.2 (by rw [elements_append]; exact mem_append_right _ hlast)

theorem last_push {next last : ℕ × ℕ}
    (h : last ∈ (Runs.push joined runs next).getLast?) : last.2 = next.2 := by
  rcases eq_nil_or_concat runs with rfl | ⟨front, prev, rfl⟩
  · exact congrArg Prod.snd (Option.some.inj h).symm
  rw [concat_eq_append, push_concat] at h
  split at h <;>
  · rw [getLast?_concat] at h
    rw [← Option.some.inj h]

theorem Canonical.join {runs rest : List (ℕ × ℕ)} (h : Canonical joined runs)
    (hnext : Canonical joined (next :: rest)) (hbehind : Behind runs next) :
    Canonical joined (Runs.push joined runs next ++ rest) := by
  have hpush := h.push (hnext.valid next mem_cons_self) hbehind
  refine ⟨forall_mem_append.mpr ⟨hpush.valid, hnext.tail.valid⟩, ?_⟩
  · refine isChain_append.mpr ⟨hpush.apart, hnext.tail.apart, fun a ha b hb => ?_⟩
    have hafter := (isChain_cons.mp hnext.apart).1 b hb
    rw [Adjacent] at hafter ⊢
    rw [last_push ha]
    exact hafter

end Runs
