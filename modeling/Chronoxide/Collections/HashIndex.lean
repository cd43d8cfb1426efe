import Mathlib.Data.List.Nodup
import Chronoxide.Collections.KeyedList

/-! A hash index over an append-only list: the place of the first value with a hash, and in a second
table the places of the values that collide with it. -/

structure HashIndex where
  first : List (UInt64 × Nat)
  collisions : List (UInt64 × List Nat)
  deriving DecidableEq, Repr

namespace HashIndex
open List

def empty : HashIndex := ⟨[], []⟩

variable (index : HashIndex)

def find {α : Type} [DecidableEq α] (resolve : Nat → Option α) (a : α) (hash : UInt64)
    : Option Nat :=
  match index.first.lookup hash with
  | none => none
  | some i =>
    if resolve i = some a then some i
    else
      match index.collisions.lookup hash with
      | none => none
      | some places => places.find? fun i => resolve i = some a

def insert (hash : UInt64) (i : Nat) : HashIndex :=
  match index.first.lookup hash with
  | none => { index with first := index.first ++ [(hash, i)] }
  | some _ =>
    let places := (index.collisions.lookup hash).getD []
    { index with collisions :=
        KeyedList.upsertBy (fun _ _ => false) hash (places ++ [i]) index.collisions }

def bucket (hash : UInt64) : List Nat :=
  match index.first.lookup hash with
  | none => []
  | some i => i :: (index.collisions.lookup hash).getD []

variable {α : Type}

/-- The buckets hold the places of the values with their hash. -/
structure Covers (index : HashIndex) (hash : α → UInt64) (values : List α) : Prop where
  mem_bucket : ∀ h i, i ∈ index.bucket h ↔ ∃ a, values[i]? = some a ∧ hash a = h
  no_orphans : ∀ h, index.first.lookup h = none → index.collisions.lookup h = none

theorem find_eq_find?_bucket [DecidableEq α] (index : HashIndex) (resolve : Nat → Option α) (a : α)
    (hash : UInt64) :
    index.find resolve a hash = (index.bucket hash).find? fun i => resolve i = some a := by
  unfold find bucket
  cases index.first.lookup hash with
  | none => rfl
  | some i =>
    by_cases hi : resolve i = some a
    · simp [hi]
    · cases index.collisions.lookup hash <;> simp [hi]

variable {index : HashIndex} {hash : α → UInt64} {values : List α}

theorem covers_empty (hash : α → UInt64) : empty.Covers hash ([] : List α) :=
  ⟨fun h i => by simp [bucket, empty], fun _ _ => rfl⟩

section
variable (hcovers : index.Covers hash values)
include hcovers

theorem Covers.bucket_insert (h h' : UInt64) (i : Nat) :
    (index.insert h i).bucket h' = index.bucket h' ++ if h' = h then [i] else [] := by
  unfold insert
  cases hfirst : index.first.lookup h with
  | none =>
    unfold bucket
    rw [KeyedList.lookup_append_singleton hfirst]
    by_cases heq : h' = h
    · rw [heq, if_pos rfl, if_pos rfl, hfirst, hcovers.no_orphans h hfirst]
      rfl
    · rw [if_neg heq, if_neg heq, append_nil]
  | some j =>
    unfold bucket
    rw [KeyedList.lookup_upsertBy]
    by_cases heq : h' = h
    · rw [heq, if_pos rfl, if_pos rfl, hfirst]
      rfl
    · rw [if_neg heq, if_neg heq, append_nil]

theorem Covers.insert (a : α) :
    (index.insert (hash a) values.length).Covers hash (values ++ [a]) := by
  refine ⟨fun h i => ?_, fun h hnone => ?_⟩
  · rw [hcovers.bucket_insert, mem_append, hcovers.mem_bucket]
    rcases Nat.lt_trichotomy i values.length with hlt | heq | hgt
    · rw [getElem?_append_left hlt]
      refine or_iff_left fun hmem => ?_
      split at hmem
      · exact absurd (mem_singleton.mp hmem) (Nat.ne_of_lt hlt)
      · cases hmem
    · subst heq
      by_cases heq : h = hash a
      · simp [heq]
      · simp [heq, eq_comm]
    rw [getElem?_eq_none (Nat.le_of_lt hgt), getElem?_eq_none (by simp; omega)]
    split
    · simp [Nat.ne_of_gt hgt]
    · simp
  unfold HashIndex.insert at hnone ⊢
  cases hfirst : index.first.lookup (hash a) with
  | none =>
    rw [hfirst] at hnone
    rw [KeyedList.lookup_append_singleton hfirst] at hnone
    split at hnone
    · cases hnone
    · exact hcovers.no_orphans h hnone
  | some j =>
    rw [hfirst] at hnone
    simp only at hnone ⊢
    have hne : h ≠ hash a := by
      rintro rfl
      rw [hfirst] at hnone
      cases hnone
    rw [KeyedList.lookup_upsertBy, if_neg hne]
    exact hcovers.no_orphans h hnone

theorem Covers.find_eq_some_iff [DecidableEq α] (hnodup : values.Nodup) (a : α) (i : Nat) :
    index.find (values[·]?) a (hash a) = some i ↔ values[i]? = some a := by
  rw [find_eq_find?_bucket]
  constructor
  · intro hfind
    simpa using List.find?_some hfind
  intro hi
  have hmem := (hcovers.mem_bucket (hash a) i).mpr ⟨a, hi, rfl⟩
  have hsome : ((index.bucket (hash a)).find? fun j => values[j]? = some a).isSome :=
    List.find?_isSome.mpr ⟨i, hmem, by simpa using hi⟩
  obtain ⟨j, hfind⟩ := Option.isSome_iff_exists.mp hsome
  have hj : values[j]? = some a := by simpa using List.find?_some hfind
  obtain ⟨hilt, hieq⟩ := List.getElem?_eq_some_iff.mp hi
  obtain ⟨hjlt, hjeq⟩ := List.getElem?_eq_some_iff.mp hj
  rw [hfind, (List.Nodup.getElem_inj_iff hnodup).mp (hjeq.trans hieq.symm)]

theorem Covers.find_eq_none_iff [DecidableEq α] (a : α) :
    index.find (values[·]?) a (hash a) = none ↔ a ∉ values := by
  rw [find_eq_find?_bucket, find?_eq_none]
  constructor
  · intro hnone hmem
    obtain ⟨i, hi⟩ := mem_iff_getElem?.mp hmem
    exact hnone i ((hcovers.mem_bucket (hash a) i).mpr ⟨a, hi, rfl⟩) (by simpa using hi)
  · intro hnot i _ hi
    exact hnot (mem_iff_getElem?.mpr ⟨i, by simpa using hi⟩)

end

end HashIndex
