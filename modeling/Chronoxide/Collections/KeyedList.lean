import Mathlib.Data.List.Basic
import Mathlib.Data.List.Perm.Basic
import Mathlib.Tactic.Common

/-! Finite maps as lists of keyed entries: the entry a lookup finds, replaced in place, added at
its place in an order, or taken out. -/

namespace KeyedList

section Insert

variable {κ ν : Type}

def insertBy (lt : κ → κ → Bool) (k : κ) (v : ν) : List (κ × ν) → List (κ × ν)
  | [] => [(k, v)]
  | e :: l => if lt k e.1 then (k, v) :: e :: l else e :: insertBy lt k v l

theorem insertBy_perm (lt : κ → κ → Bool) (k : κ) (v : ν) (l : List (κ × ν)) :
    (insertBy lt k v l).Perm ((k, v) :: l) := by
  induction l with
  | nil => exact List.Perm.refl _
  | cons e l ih =>
    unfold insertBy
    split
    · exact List.Perm.refl _
    · exact (ih.cons e).trans (List.Perm.swap ..)

theorem insertBy_false (k : κ) (v : ν) (l : List (κ × ν)) :
    insertBy (fun _ _ => false) k v l = l ++ [(k, v)] := by
  induction l with
  | nil => rfl
  | cons e l ih =>
    unfold insertBy
    rw [ih]
    rfl

end Insert

section Update

variable {κ ν : Type} [DecidableEq κ]

def set (k : κ) (v : ν) : List (κ × ν) → List (κ × ν)
  | [] => []
  | e :: l => if k = e.1 then (k, v) :: l else e :: set k v l

def remove (k : κ) : List (κ × ν) → List (κ × ν)
  | [] => []
  | e :: l => if k = e.1 then l else e :: remove k l

end Update

variable {κ ν : Type} [DecidableEq κ] [BEq κ] [LawfulBEq κ]

/-- `insert` of a map: the value under the key is replaced, or a new entry is added. -/
def upsertBy (lt : κ → κ → Bool) (k : κ) (v : ν) (l : List (κ × ν)) : List (κ × ν) :=
  if (l.lookup k).isSome then set k v l else insertBy lt k v l

variable {l : List (κ × ν)} {k k' : κ} {v : ν}

theorem lookup_cons_ite (k : κ) (e : κ × ν) (l : List (κ × ν)) :
    (e :: l).lookup k = if k = e.1 then some e.2 else l.lookup k := by
  rw [List.lookup_cons]
  by_cases hk : k = e.1
  · rw [if_pos hk, hk, beq_self_eq_true]
  · rw [if_neg hk, beq_eq_false_iff_ne.mpr hk]

theorem exists_split (h : l.lookup k = some v) :
    ∃ front back, l = front ++ (k, v) :: back ∧ remove k l = front ++ back ∧
      ∀ v', set k v' l = front ++ (k, v') :: back := by
  induction l with
  | nil => cases h
  | cons e l ih =>
    rw [lookup_cons_ite] at h
    by_cases hk : k = e.1
    · rw [if_pos hk] at h
      have he : e = (k, v) := Prod.ext hk.symm (Option.some.inj h)
      refine ⟨[], l, by rw [he]; rfl, ?_, fun v' => ?_⟩
      · rw [remove, if_pos hk]
        rfl
      · rw [set, if_pos hk]
        rfl
    rw [if_neg hk] at h
    obtain ⟨front, back, hl, hremove, hset⟩ := ih h
    refine ⟨e :: front, back, by rw [hl]; rfl, ?_, fun v' => ?_⟩
    · rw [remove, if_neg hk, hremove]
      rfl
    · rw [set, if_neg hk, hset]
      rfl

theorem lookup_of_mem {e : κ × ν} (hnodup : (l.map Prod.fst).Nodup) (he : e ∈ l) :
    l.lookup e.1 = some e.2 := by
  induction l with
  | nil => cases he
  | cons e' l ih =>
    rw [List.map_cons, List.nodup_cons] at hnodup
    rw [lookup_cons_ite]
    rcases List.mem_cons.mp he with rfl | he
    · rw [if_pos rfl]
    have hne : e.1 ≠ e'.1 := by
      intro heq
      apply hnodup.1
      rw [← heq]
      exact List.mem_map_of_mem he
    rw [if_neg hne]
    exact ih hnodup.2 he

omit [BEq κ] [LawfulBEq κ] in
theorem ite_swap {α : Type} {k₁ k₂ : κ} (h : k₁ ≠ k₂) {x y z : α} :
    (if k' = k₂ then x else if k' = k₁ then y else z) =
      if k' = k₁ then y else if k' = k₂ then x else z := by
  split_ifs with h₂ h₁ <;> first | rfl | exact absurd (h₁.symm.trans h₂) h

theorem lookup_set (h : (l.lookup k).isSome) :
    (set k v l).lookup k' = if k' = k then some v else l.lookup k' := by
  induction l with
  | nil => cases h
  | cons e l ih =>
    unfold set
    by_cases hk : k = e.1
    · rw [if_pos hk, lookup_cons_ite, lookup_cons_ite, ← hk]
      split <;> rfl
    · rw [lookup_cons_ite, if_neg hk] at h
      rw [if_neg hk, lookup_cons_ite, lookup_cons_ite, ih h, ite_swap hk]

theorem lookup_insertBy (lt : κ → κ → Bool) (h : l.lookup k = none) :
    (insertBy lt k v l).lookup k' = if k' = k then some v else l.lookup k' := by
  induction l with
  | nil => exact lookup_cons_ite k' (k, v) []
  | cons e l ih =>
    unfold insertBy
    split
    · exact lookup_cons_ite k' (k, v) (e :: l)
    have hk : k ≠ e.1 := by
      intro hk
      rw [lookup_cons_ite, if_pos hk] at h
      cases h
    rw [lookup_cons_ite, if_neg hk] at h
    rw [lookup_cons_ite, lookup_cons_ite, ih h, ite_swap hk]

theorem lookup_append_singleton (h : l.lookup k = none) :
    (l ++ [(k, v)]).lookup k' = if k' = k then some v else l.lookup k' := by
  rw [← insertBy_false]
  exact lookup_insertBy _ h

theorem lookup_upsertBy (lt : κ → κ → Bool) (l : List (κ × ν)) (k k' : κ) (v : ν) :
    (upsertBy lt k v l).lookup k' = if k' = k then some v else l.lookup k' := by
  unfold upsertBy
  split
  · rename_i h
    exact lookup_set h
  · rename_i h
    exact lookup_insertBy lt (Option.not_isSome_iff_eq_none.mp h)

end KeyedList
