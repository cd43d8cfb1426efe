import Mathlib.Data.List.Basic
import Mathlib.Data.List.Infix
import Mathlib.Tactic.Common

/-! Dictionaries in order of first use: a key gets the next free number when it is first seen and
keeps it. -/

namespace Codec
open List

variable {α : Type} [DecidableEq α] (table : List α)

def intern (key : α) : List α := if key ∈ table then table else table ++ [key]

def firstSeen (keys : List α) : List α := keys.foldl intern table

def numberOf (key : α) : Nat := table.idxOf key

@[simp] theorem firstSeen_nil : firstSeen table [] = table := rfl

@[simp] theorem firstSeen_cons (key : α) (keys : List α) :
    firstSeen table (key :: keys) = firstSeen (intern table key) keys := rfl

variable {table : List α} {key : α}

theorem intern_of_mem (h : key ∈ table) : intern table key = table :=
  if_pos h

theorem intern_of_not_mem (h : key ∉ table) :
    intern table key = table ++ [key] := if_neg h

theorem prefix_intern (table : List α) (key : α) : table <+: intern table key := by
  unfold intern
  split
  · exact prefix_rfl
  · exact prefix_append _ _

theorem prefix_firstSeen (table keys : List α) : table <+: firstSeen table keys := by
  induction keys generalizing table with
  | nil => exact prefix_rfl
  | cons key keys ih => exact (prefix_intern table key).trans (ih _)

theorem mem_intern {k : α} : k ∈ intern table key ↔ k ∈ table ∨ k = key := by
  unfold intern
  split
  · rename_i hkey
    exact (or_iff_left_of_imp fun h => h ▸ hkey).symm
  · rw [mem_append, mem_singleton]

theorem mem_firstSeen_iff {table keys : List α} :
    key ∈ firstSeen table keys ↔ key ∈ table ∨ key ∈ keys := by
  induction keys generalizing table with
  | nil => simp
  | cons k keys ih => rw [firstSeen_cons, ih, mem_intern, mem_cons, or_assoc]

theorem nodup_intern (h : table.Nodup) (key : α) : (intern table key).Nodup := by
  unfold intern
  split
  · exact h
  · rename_i hkey
    exact nodup_append.mpr ⟨h, by simp, by rintro a ha b hb rfl; simp_all⟩

theorem nodup_firstSeen (h : table.Nodup) (keys : List α) : (firstSeen table keys).Nodup := by
  induction keys generalizing table with
  | nil => exact h
  | cons key keys ih => exact ih (nodup_intern h key)

theorem firstSeen_of_nodup (table : List α) {keys : List α} (h : (table ++ keys).Nodup) :
    firstSeen table keys = table ++ keys := by
  induction keys generalizing table with
  | nil => rw [firstSeen_nil, append_nil]
  | cons key keys ih =>
    rw [append_cons] at h
    have hnew : key ∉ table := fun hmem =>
      (nodup_append.mp (nodup_append.mp h).1).2.2 key hmem key (by simp) rfl
    rw [firstSeen_cons, intern_of_not_mem hnew, ih _ h, ← append_cons]

theorem length_intern_le (table : List α) (key : α) :
    (intern table key).length ≤ table.length + 1 := by
  unfold intern
  split <;> simp

theorem length_firstSeen_le (table keys : List α) :
    (firstSeen table keys).length ≤ table.length + keys.length := by
  induction keys generalizing table with
  | nil => simp
  | cons key keys ih =>
    have hrest := ih (intern table key)
    have hkey := length_intern_le table key
    rw [firstSeen_cons, length_cons]
    omega

theorem numberOf_of_extends {table table' : List α} (hpre : table <+: table')
    (h : key ∈ table) : numberOf table' key = numberOf table key := by
  obtain ⟨tail, rfl⟩ := hpre
  exact idxOf_append_of_mem h

omit [DecidableEq α] in
theorem mem_take_of_getElem? {n i : Nat} (h : table[i]? = some key)
    (hi : i < n) : key ∈ table.take n := by
  rw [mem_iff_getElem?]
  exact ⟨i, by rw [getElem?_take, if_pos hi, h]⟩

theorem numberOf_of_getElem? (hnodup : table.Nodup) {i : Nat}
    (h : table[i]? = some key) : numberOf table key = i := by
  obtain ⟨hi, rfl⟩ := List.getElem?_eq_some_iff.mp h
  exact hnodup.idxOf_getElem i hi

theorem intern_take (hnodup : table.Nodup) {n i : Nat} (h : table[i]? = some key) (hle : i ≤ n) :
    intern (table.take n) key = table.take (if i = n then n + 1 else n) := by
  rcases Nat.lt_or_eq_of_le hle with hlt | rfl
  · rw [intern_of_mem (mem_take_of_getElem? h hlt), if_neg (by omega)]
  have hnot : key ∉ table.take i := fun hmem => by
    obtain ⟨j, hj⟩ := mem_iff_getElem?.mp hmem
    rw [getElem?_take] at hj
    split at hj
    · have hi := numberOf_of_getElem? hnodup h
      have hj := numberOf_of_getElem? hnodup hj
      omega
    · cases hj
  rw [intern_of_not_mem hnot, if_pos rfl, take_add_one, h]
  rfl

theorem exists_getElem?_of_intern {n : Nat} (hn : n ≤ table.length)
    (h : intern (table.take n) key <+: table) : ∃ i ≤ n, table[i]? = some key := by
  by_cases hmem : key ∈ table.take n
  · obtain ⟨i, hi⟩ := mem_iff_getElem?.mp hmem
    rw [getElem?_take] at hi
    split at hi
    · exact ⟨i, by omega, hi⟩
    · cases hi
  rw [intern_of_not_mem hmem] at h
  obtain ⟨tail, htail⟩ := h
  refine ⟨n, le_rfl, ?_⟩
  have hlen : (table.take n).length = n := by rw [length_take]; omega
  rw [← htail, append_assoc, getElem?_append_right (by omega), hlen, Nat.sub_self]
  rfl

end Codec
