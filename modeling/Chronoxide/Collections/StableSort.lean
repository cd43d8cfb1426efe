import Mathlib.Data.List.Forall2
import Mathlib.Data.List.Nodup
import Mathlib.Order.Lattice

/-! A stable sort by a key. -/

namespace StableSort
open List

scoped instance uint64LinearOrder : LinearOrder UInt64 where
  le_refl := UInt64.le_refl
  le_trans _ _ _ := UInt64.le_trans
  lt_iff_le_not_ge a b := by rw [← UInt64.not_le, iff_and_self, UInt64.not_le]; exact UInt64.le_of_lt
  le_antisymm _ _ := UInt64.le_antisymm
  le_total := UInt64.le_total
  toDecidableLE := inferInstance
  compare := compare
  compare_eq_compareOfLessAndEq _ _ := rfl

variable {α β κ : Type} [LinearOrder κ] {key : α → κ}

def sortByKey (key : α → κ) (l : List α) : List α := l.mergeSort fun a b => key a ≤ key b

theorem key_le_trans (a b c : α) (hab : decide (key a ≤ key b)) (hbc : decide (key b ≤ key c)) :
    decide (key a ≤ key c) :=
  decide_eq_true ((of_decide_eq_true hab).trans (of_decide_eq_true hbc))

theorem key_le_total (a b : α) : decide (key a ≤ key b) || decide (key b ≤ key a) := by
  simpa using le_total (key a) (key b)

theorem sortByKey_perm (l : List α) : (sortByKey key l).Perm l := mergeSort_perm ..

theorem sortByKey_sorted (l : List α) : (sortByKey key l).Pairwise fun a b => key a ≤ key b :=
  (pairwise_mergeSort key_le_trans key_le_total l).imp fun h => of_decide_eq_true h

@[simp] theorem sortByKey_nil : sortByKey key ([] : List α) = [] := mergeSort_nil

variable {l : List α}

theorem sortByKey_of_sorted (h : l.Pairwise fun a b => key a ≤ key b) : sortByKey key l = l :=
  mergeSort_of_pairwise (h.imp fun hle => decide_eq_true hle)

theorem sortByKey_map {key' : β → κ} {f : α → β} (hkey : ∀ a, key' (f a) = key a) (l : List α) :
    sortByKey key' (l.map f) = (sortByKey key l).map f := by
  refine (map_mergeSort fun a _ b _ => ?_).symm
  rw [hkey, hkey]

theorem sortByKey_cons (a : α) (l : List α) :
    sortByKey key (a :: l) = (sortByKey key l).filter (fun b => key b < key a) ++
      a :: (sortByKey key l).filter fun b => ¬ key b < key a := by
  obtain ⟨before, after, hcons, hl, hbefore⟩ :=
    @mergeSort_cons α (fun a b => key a ≤ key b) key_le_trans key_le_total a l
  have hsorted : (before ++ a :: after).Pairwise fun a b => key a ≤ key b := by
    rw [← hcons]
    exact sortByKey_sorted (a :: l)
  have hless : ∀ b ∈ before, key b < key a := by
    intro b hb
    have := hbefore b hb
    rwa [Bool.not_eq_true', decide_eq_false_iff_not, not_le] at this
  have hmore : ∀ b ∈ after, ¬ key b < key a := by
    intro b hb
    exact not_lt.mpr ((pairwise_cons.mp (pairwise_append.mp hsorted).2.1).1 b hb)
  have hfront : (before ++ after).filter (fun b => key b < key a) = before := by
    rw [filter_append, filter_eq_self.mpr fun b hb => decide_eq_true (hless b hb),
      filter_eq_nil_iff.mpr fun b hb => by simpa using hmore b hb, append_nil]
  have hback : (before ++ after).filter (fun b => ¬ key b < key a) = after := by
    rw [filter_append, filter_eq_nil_iff.mpr fun b hb => by simpa using hless b hb,
      filter_eq_self.mpr fun b hb => decide_eq_true (hmore b hb), nil_append]
  simp only [sortByKey, hcons, hl, hfront, hback]

theorem filter_lt_append (h : l.Pairwise fun a b => key a ≤ key b) (k : κ) :
    l.filter (fun b => key b < k) ++ l.filter (fun b => ¬ key b < k) = l := by
  induction l with
  | nil => rfl
  | cons b l ih =>
    obtain ⟨hb, hl⟩ := pairwise_cons.mp h
    by_cases hlt : key b < k
    · rw [filter_cons_of_pos (by simpa using hlt),
        filter_cons_of_neg (by simpa using hlt), cons_append, ih hl]
    have hnone : ∀ c ∈ l, ¬ key c < k := fun c hc hck => hlt ((hb c hc).trans_lt hck)
    rw [filter_cons_of_neg (by simpa using hlt), filter_cons_of_pos (by simpa using hlt),
      filter_eq_nil_iff.mpr fun c hc => by simpa using hnone c hc,
      filter_eq_self.mpr fun c hc => decide_eq_true (hnone c hc), nil_append]

theorem filter_comm (p q : α → Bool) (l : List α) :
    (l.filter p).filter q = (l.filter q).filter p := by
  simp [filter_filter, Bool.and_comm]

theorem sortByKey_filter (p : α → Bool) (l : List α) :
    sortByKey key (l.filter p) = (sortByKey key l).filter p := by
  induction l with
  | nil => simp
  | cons a l ih =>
    rw [sortByKey_cons, filter_append]
    cases hp : p a with
    | true =>
      rw [filter_cons_of_pos hp, filter_cons_of_pos hp, sortByKey_cons, ih,
        filter_comm p, filter_comm p]
    | false =>
      rw [filter_cons_of_neg (by simp [hp]), filter_cons_of_neg (by simp [hp]), ih,
        filter_comm _ p, filter_comm _ p]
      exact (filter_lt_append ((sortByKey_sorted l).filter p) (key a)).symm

/-- A key that agrees with another one and grows along every run of equal keys. -/
structure Settles {κ' : Type} [LinearOrder κ'] (key : α → κ) (key' : α → κ') (l : List α) : Prop where
  lt : ∀ a ∈ l, ∀ b ∈ l, key a < key b → key' a < key' b
  ties : l.Pairwise fun a b => key a = key b → key' a < key' b

theorem Settles.sorted {κ' : Type} [LinearOrder κ'] {key' : α → κ'}
    (h : Settles key key' l) : (sortByKey key l).Pairwise fun a b => key' a < key' b := by
  induction l with
  | nil => simp
  | cons a l ih =>
    obtain ⟨hties, htail⟩ := pairwise_cons.mp h.ties
    have hmem : ∀ {b : α}, b ∈ sortByKey key l → b ∈ a :: l := fun hb =>
      mem_cons_of_mem _ ((sortByKey_perm l).mem_iff.mp hb)
    have hrest := ih ⟨fun b hb c hc => h.lt b (mem_cons_of_mem _ hb) c
      (mem_cons_of_mem _ hc), htail⟩
    have hself : a ∈ a :: l := mem_cons_self ..
    rw [sortByKey_cons, pairwise_append, pairwise_cons]
    refine ⟨hrest.filter _, ⟨?_, hrest.filter _⟩, ?_⟩
    · intro b hb
      obtain ⟨hb, hnot⟩ := mem_filter.mp hb
      have hle : key a ≤ key b := not_lt.mp (of_decide_eq_true hnot)
      rcases hle.lt_or_eq with hlt | heq
      · exact h.lt a hself b (hmem hb) hlt
      · exact hties b ((sortByKey_perm l).mem_iff.mp hb) heq
    intro b hfirst c hc
    obtain ⟨hb, hlt⟩ := mem_filter.mp hfirst
    have hlt : key b < key a := of_decide_eq_true hlt
    rcases mem_cons.mp hc with heq | hc
    · exact heq ▸ h.lt b (hmem hb) a hself hlt
    · obtain ⟨hc, hnot⟩ := mem_filter.mp hc
      have hle : key a ≤ key c := not_lt.mp (of_decide_eq_true hnot)
      exact h.lt b (hmem hb) c (hmem hc) (hlt.trans_le hle)

theorem Settles.sortByKey_eq {κ' : Type} [LinearOrder κ'] {key' : α → κ'}
    (h : Settles key key' l) : sortByKey key' l = sortByKey key l := by
  have hperm : (sortByKey key' l).Perm (sortByKey key l) :=
    (sortByKey_perm l).trans (sortByKey_perm l).symm
  have hsorted := h.sorted
  -- the finer key tells all elements apart
  have hinj : ∀ a ∈ sortByKey key l, ∀ b ∈ sortByKey key l, key' a ≤ key' b → key' b ≤ key' a →
      a = b := by
    intro a ha b hb hab hba
    have hnodup : ((sortByKey key l).map key').Nodup := pairwise_map.mpr (hsorted.imp ne_of_lt)
    exact inj_on_of_nodup_map hnodup ha hb (le_antisymm hab hba)
  refine Perm.eq_of_pairwise (fun a b ha hb hab hba => ?_) (sortByKey_sorted l)
    (hsorted.imp le_of_lt) hperm
  exact hinj a (hperm.mem_iff.mp ha) b hb hab hba

theorem sortByKey_forall₂ {κ' : Type} [LinearOrder κ'] {key' : β → κ'} {R : α → β → Prop}
    {S : β → β → Prop} {as : List α} {bs : List β} (h : Forall₂ R as bs) (hS : bs.Pairwise S)
    (hlt : ∀ {a b a' b'}, R a b → R a' b' → key a < key a' → key' b < key' b')
    (hties : ∀ {a b a' b'}, R a b → R a' b' → S b b' → key a = key a' → key' b < key' b') :
    Forall₂ R (sortByKey key as) (sortByKey key' bs) := by
  obtain ⟨hlength, hzip⟩ := forall₂_iff_zip.mp h
  have hfst : (as.zip bs).map Prod.fst = as := map_fst_zip (Nat.le_of_eq hlength)
  have hsnd : (as.zip bs).map Prod.snd = bs := map_snd_zip (Nat.le_of_eq hlength.symm)
  have hpairs : (as.zip bs).Pairwise fun p q => S p.2 q.2 := by
    rw [← pairwise_map, hsnd]
    exact hS
  have hsettles : Settles (fun p : α × β => key p.1) (fun p => key' p.2) (as.zip bs) :=
    ⟨fun p hp q hq => hlt (hzip hp) (hzip hq),
      List.Pairwise.imp_of_mem (fun hp hq hS => hties (hzip hp) (hzip hq) hS) hpairs⟩
  have hfront : sortByKey key as = (sortByKey (fun p => key p.1) (as.zip bs)).map Prod.fst := by
    rw [← sortByKey_map fun _ => rfl, hfst]
  have hback : sortByKey key' bs = (sortByKey (fun p => key p.1) (as.zip bs)).map Prod.snd := by
    rw [← hsettles.sortByKey_eq, ← sortByKey_map fun _ => rfl, hsnd]
  rw [hfront, hback, forall₂_map_left_iff, forall₂_map_right_iff, forall₂_same]
  intro p hp
  exact hzip ((sortByKey_perm _).mem_iff.mp hp)

end StableSort
