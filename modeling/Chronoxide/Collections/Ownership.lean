import Mathlib.Algebra.BigOperators.Group.Multiset.Basic
import Mathlib.Tactic.Abel

/-! A multiset divided among owners: every owner has a share that its own data accounts for, and the
shares add up. -/

namespace Ownership
open List

variable {α β γ : Type} {R : α → Multiset β → Prop}

/-- The total is divided among the owners, each with a share that `R` allows. -/
def Owns (R : α → Multiset β → Prop) (owners : List α) (total : Multiset β) : Prop :=
  ∃ shares : List (Multiset β), Forall₂ R owners shares ∧ shares.sum = total

theorem owns_nil : Owns R [] 0 := ⟨[], .nil, rfl⟩

variable {total : Multiset β}

theorem owns_nil_iff : Owns R [] total ↔ total = 0 := by
  constructor
  · rintro ⟨shares, hshares, rfl⟩
    cases hshares
    rfl
  · rintro rfl
    exact owns_nil

theorem owns_cons {owner : α} {owners : List α} :
    Owns R (owner :: owners) total ↔
      ∃ share rest, R owner share ∧ Owns R owners rest ∧ share + rest = total := by
  constructor
  · rintro ⟨shares, hshares, rfl⟩
    cases hshares with
    | cons hshare hrest => exact ⟨_, _, hshare, ⟨_, hrest, rfl⟩, sum_cons.symm⟩
  · rintro ⟨share, rest, hshare, ⟨shares, hrest, rfl⟩, rfl⟩
    exact ⟨share :: shares, .cons hshare hrest, sum_cons⟩

theorem owns_append {front back : List α} :
    Owns R (front ++ back) total ↔
      ∃ first second, Owns R front first ∧ Owns R back second ∧ first + second = total := by
  induction front generalizing total with
  | nil => simp [owns_nil_iff]
  | cons owner front ih =>
    rw [cons_append, owns_cons]
    constructor
    · rintro ⟨share, rest, hshare, hrest, rfl⟩
      obtain ⟨first, second, hfirst, hsecond, rfl⟩ := ih.mp hrest
      exact ⟨share + first, second, owns_cons.mpr ⟨_, _, hshare, hfirst, rfl⟩, hsecond,
        add_assoc ..⟩
    · rintro ⟨first, second, hfirst, hsecond, rfl⟩
      obtain ⟨share, rest, hshare, hrest, rfl⟩ := owns_cons.mp hfirst
      exact ⟨share, rest + second, hshare, ih.mpr ⟨_, _, hrest, hsecond, rfl⟩, (add_assoc ..).symm⟩

theorem owns_map {f : γ → α} {owners : List γ} :
    Owns R (owners.map f) total ↔ Owns (fun owner => R (f owner)) owners total := by
  simp [Owns]

theorem Owns.perm {owners owners' : List α} (h : Owns R owners total)
    (hperm : owners.Perm owners') : Owns R owners' total := by
  obtain ⟨shares, hshares, rfl⟩ := h
  obtain ⟨shares', hshares', hsum⟩ := perm_comp_forall₂ hperm.symm hshares
  exact ⟨shares', hshares', hsum.sum_eq⟩

theorem Owns.update {owner owner' : α} {owners : List α} {total extra : Multiset β}
    (h : Owns R (owner :: owners) total)
    (hstep : ∀ share, R owner share → R owner' (extra + share)) :
    Owns R (owner' :: owners) (extra + total) := by
  obtain ⟨share, rest, hshare, hrest, rfl⟩ := owns_cons.mp h
  exact owns_cons.mpr ⟨extra + share, rest, hstep share hshare, hrest, add_assoc ..⟩

theorem Owns.filter {owners : List α} (h : Owns R owners total)
    {p : α → Bool} (hzero : ∀ owner ∈ owners, p owner = false → ∀ share, R owner share → share = 0) :
    Owns R (owners.filter p) total := by
  induction owners generalizing total with
  | nil => exact h
  | cons owner owners ih =>
    obtain ⟨share, rest, hshare, hrest, rfl⟩ := owns_cons.mp h
    have hkept := ih hrest fun other hmem => hzero other (mem_cons_of_mem _ hmem)
    rw [filter_cons]
    split
    · exact owns_cons.mpr ⟨share, rest, hshare, hkept, rfl⟩
    · rename_i hnot
      rw [hzero owner mem_cons_self (Bool.eq_false_of_not_eq_true hnot) share hshare, zero_add]
      exact hkept

end Ownership
