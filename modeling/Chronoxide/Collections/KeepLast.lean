import Mathlib.Data.List.Pairwise
import Chronoxide.Collections.StableSort

/-! Lists in which the last element of every key counts. Sorting by the key and dropping all but the
last element of each run gives the one list with increasing keys and the same last elements. -/

namespace KeepLast
open List
open StableSort (key_le_trans key_le_total)

variable {α β κ : Type} [LinearOrder κ] (key : α → κ)

def last? (k : κ) (l : List α) : Option α := (l.filter fun a => key a = k).getLast?

def Increasing (l : List α) : Prop := l.Pairwise fun a b => key a < key b

/-- Drops every element whose successor has the same key. -/
def keepLast : List α → List α
  | [] => []
  | [a] => [a]
  | a :: b :: rest => if key a = key b then keepLast (b :: rest) else a :: keepLast (b :: rest)

/-- One step of a compaction in place: an element replaces the last one of its key. -/
def replaceLast (out : List α) (a : α) : List α :=
  match out.getLast? with
  | none => [a]
  | some b => if key b = key a then out.dropLast ++ [a] else out ++ [a]

def compact (l : List α) : List α := l.foldl (replaceLast key) []

/-- The last element of every run, each run read to its end before the next one starts. -/
def lastOfRuns : List α → List α
  | [] => []
  | a :: rest =>
    (rest.takeWhile fun b => key b = key a).getLastD a ::
      lastOfRuns (rest.dropWhile fun b => key b = key a)
termination_by l => l.length
decreasing_by
  exact Nat.lt_succ_of_le (dropWhile_sublist _).length_le

def runCount : List α → Nat
  | [] => 0
  | a :: rest => runCount (rest.dropWhile fun b => key b = key a) + 1
termination_by l => l.length
decreasing_by
  exact Nat.lt_succ_of_le (dropWhile_sublist _).length_le

variable {key}

@[simp] theorem last?_nil (k : κ) : last? key k [] = none := rfl

theorem last?_append (k : κ) (l₁ l₂ : List α) :
    last? key k (l₁ ++ l₂) = (last? key k l₂).or (last? key k l₁) := by
  rw [last?, filter_append, getLast?_append]
  rfl

variable {a : α} {k : κ}

theorem last?_cons_of_ne (h : key a ≠ k) (l : List α) : last? key k (a :: l) = last? key k l := by
  rw [last?, filter_cons_of_neg (by simpa using h)]
  rfl

theorem last?_cons_self (a : α) (l : List α) :
    last? key (key a) (a :: l) = some ((last? key (key a) l).getD a) := by
  rw [last?, filter_cons_of_pos (by simp), getLast?_cons]
  rfl

variable {l : List α}

theorem last?_eq_none (h : ∀ a ∈ l, key a ≠ k) : last? key k l = none := by
  have hnone : (l.filter fun a => key a = k) = [] := by
    rw [filter_eq_nil_iff]
    intro a ha
    simpa using h a ha
  rw [last?, hnone]
  rfl

theorem ne_of_last?_eq_none (h : last? key k l = none) : ∀ a ∈ l, key a ≠ k := by
  intro a ha heq
  have hempty := getLast?_eq_none_iff.mp h
  rw [filter_eq_nil_iff] at hempty
  exact hempty a ha (by simpa using heq)

theorem last?_mem (h : last? key k l = some a) : a ∈ l ∧ key a = k := by
  have hmem := mem_of_getLast? h
  rw [mem_filter] at hmem
  exact ⟨hmem.1, by simpa using hmem.2⟩

theorem last?_cons_of_mem {a b : α} (hb : b ∈ l) (hkey : key b = key a) (k : κ) :
    last? key k (a :: l) = last? key k l := by
  by_cases hk : key a = k
  · subst hk
    rw [last?_cons_self]
    cases hlast : last? key (key a) l with
    | none => exact absurd hkey (ne_of_last?_eq_none hlast b hb)
    | some c => rfl
  · exact last?_cons_of_ne hk l

theorem last?_map {key' : β → κ} {f : α → β} (hkey : ∀ a, key' (f a) = key a) (k : κ)
    (l : List α) : last? key' k (l.map f) = (last? key k l).map f := by
  have hfilter : (l.map f).filter (fun b => key' b = k) =
      (l.filter fun a => key a = k).map f := by
    rw [filter_map]
    congr 1
    apply filter_congr
    intro a _
    simp [hkey]
  rw [last?, hfilter, getLast?_map]
  rfl

theorem Increasing.last?_head (h : Increasing key (a :: l)) :
    last? key (key a) (a :: l) = some a := by
  rw [last?_cons_self, last?_eq_none]
  · rfl
  · intro b hb
    exact ne_of_gt ((pairwise_cons.mp h).1 b hb)

theorem Increasing.map {key' : β → κ} {f : α → β} (hkey : ∀ a, key' (f a) = key a)
    (h : Increasing key l) : Increasing key' (l.map f) := by
  refine pairwise_map.mpr (h.imp fun {a b} hab => ?_)
  rwa [hkey, hkey]

variable {l₁ l₂ : List α}

theorem Increasing.filter_eq (h : Increasing key l) (k : κ) :
    l.filter (fun a => key a = k) = (last? key k l).toList := by
  induction l with
  | nil => rfl
  | cons a l ih =>
    obtain ⟨ha, htail⟩ := pairwise_cons.mp h
    by_cases hk : key a = k
    · subst hk
      rw [h.last?_head, filter_cons_of_pos (by simp), ih htail,
        last?_eq_none fun b hb => ne_of_gt (ha b hb)]
      rfl
    · rw [last?_cons_of_ne hk, filter_cons_of_neg (by simpa using hk), ih htail]

theorem Increasing.mem_iff (h : Increasing key l) : a ∈ l ↔ last? key (key a) l = some a := by
  refine ⟨fun hmem => ?_, fun hlast => (last?_mem hlast).1⟩
  induction l with
  | nil => cases hmem
  | cons b l ih =>
    obtain ⟨hb, htail⟩ := pairwise_cons.mp h
    rcases mem_cons.mp hmem with hab | hmem
    · rw [hab]
      exact h.last?_head
    · rw [last?_cons_of_ne (ne_of_lt (hb a hmem))]
      exact ih htail hmem

theorem Increasing.ext_mem (h₁ : Increasing key l₁) (h₂ : Increasing key l₂)
    (h : ∀ a, a ∈ l₁ ↔ a ∈ l₂) : l₁ = l₂ := by
  have hnodup : ∀ {l : List α}, Increasing key l → l.Nodup := fun hl =>
    hl.imp fun hlt => ne_of_apply_ne key hlt.ne
  exact Perm.eq_of_pairwise (fun _ _ _ _ hab hba => absurd hab (lt_asymm hba)) h₁ h₂
    ((perm_ext_iff_of_nodup (hnodup h₁) (hnodup h₂)).mpr h)

theorem Increasing.ext (h₁ : Increasing key l₁) (h₂ : Increasing key l₂)
    (h : ∀ k, last? key k l₁ = last? key k l₂) : l₁ = l₂ :=
  h₁.ext_mem h₂ fun a => by rw [h₁.mem_iff, h₂.mem_iff, h]

theorem last?_keepLast (k : κ) (l : List α) : last? key k (keepLast key l) = last? key k l := by
  induction l using keepLast.induct key with
  | case1 => rfl
  | case2 a => rfl
  | case3 a b rest heq ih =>
    rw [keepLast, if_pos heq, ih]
    by_cases hk : key a = k
    · subst hk
      rw [last?_cons_self, heq, last?_cons_self]
      rfl
    · rw [last?_cons_of_ne hk]
  | case4 a b rest hne ih =>
    rw [keepLast, if_neg hne]
    by_cases hk : key a = k
    · subst hk
      rw [last?_cons_self, last?_cons_self, ih]
    · rw [last?_cons_of_ne hk, last?_cons_of_ne hk, ih]

theorem mem_of_mem_keepLast (h : a ∈ keepLast key l) : a ∈ l := by
  induction l using keepLast.induct key with
  | case1 => exact h
  | case2 b => exact h
  | case3 b c rest heq ih =>
    rw [keepLast, if_pos heq] at h
    exact mem_cons_of_mem _ (ih h)
  | case4 b c rest hne ih =>
    rw [keepLast, if_neg hne] at h
    rcases mem_cons.mp h with hab | h
    · rw [hab]
      exact mem_cons_self ..
    · exact mem_cons_of_mem _ (ih h)

theorem foldl_replaceLast (l out : List α) (a : α) :
    l.foldl (replaceLast key) (out ++ [a]) = out ++ keepLast key (a :: l) := by
  induction l generalizing out a with
  | nil => rfl
  | cons b l ih =>
    rw [foldl_cons, replaceLast, getLast?_append, keepLast]
    simp only [getLast?_singleton, Option.some_or, dropLast_concat]
    split
    · exact ih out b
    · rw [ih, append_assoc]
      rfl

variable (l)

theorem compact_eq_keepLast : compact key l = keepLast key l := by
  cases l with
  | nil => rfl
  | cons a l => exact foldl_replaceLast l [] a

theorem keepLast_cons (a : α) (rest : List α) :
    keepLast key (a :: rest) = (rest.takeWhile fun b => key b = key a).getLastD a ::
      keepLast key (rest.dropWhile fun b => key b = key a) := by
  induction rest generalizing a with
  | nil => rfl
  | cons b rest ih =>
    rw [keepLast]
    by_cases hab : key a = key b
    · rw [if_pos hab, ih b, takeWhile_cons_of_pos (by simpa using hab.symm),
        dropWhile_cons_of_pos (by simpa using hab.symm)]
      simp only [hab, getLastD_cons]
    · rw [if_neg hab, takeWhile_cons_of_neg (by simpa using Ne.symm hab),
        dropWhile_cons_of_neg (by simpa using Ne.symm hab)]
      rfl

theorem lastOfRuns_eq_keepLast : lastOfRuns key l = keepLast key l := by
  fun_induction lastOfRuns key l with
  | case1 => rfl
  | case2 a rest ih => rw [ih, keepLast_cons]

theorem runCount_eq_length : runCount key l = (keepLast key l).length := by
  fun_induction runCount key l with
  | case1 => rfl
  | case2 a rest ih => rw [ih, keepLast_cons, length_cons]

theorem last?_middle (h : ∀ b ∈ l₁ ++ l₂, key b ≠ key a) (k : κ) :
    last? key k (l₁ ++ a :: l₂) = last? key k (a :: (l₁ ++ l₂)) := by
  by_cases hk : key a = k
  · subst hk
    rw [last?_append, last?_cons_self, last?_cons_self, last?_eq_none h,
      last?_eq_none fun b hb => h b (mem_append_right _ hb)]
    rfl
  · rw [last?_append, last?_cons_of_ne hk, last?_cons_of_ne hk, last?_append]

theorem map_keepLast {κ' : Type} [LinearOrder κ'] {key' : β → κ'} {f : α → β}
    (h : ∀ a ∈ l, ∀ b ∈ l, (key' (f a) = key' (f b) ↔ key a = key b)) :
    (keepLast key l).map f = keepLast key' (l.map f) := by
  induction l using keepLast.induct key with
  | case1 => rfl
  | case2 a => rfl
  | case3 a b rest heq ih =>
    have hab := (h a (by simp) b (by simp)).mpr heq
    rw [keepLast, if_pos heq, ih fun x hx y hy => h x (mem_cons_of_mem _ hx) y
      (mem_cons_of_mem _ hy)]
    exact (if_pos hab).symm
  | case4 a b rest hne ih =>
    have hab := fun heq => hne ((h a (by simp) b (by simp)).mp heq)
    rw [keepLast, if_neg hne, map_cons, ih fun x hx y hy => h x (mem_cons_of_mem _ hx) y
      (mem_cons_of_mem _ hy)]
    exact (if_neg hab).symm

variable {l}

theorem keepLast_increasing (h : l.Pairwise fun a b => key a ≤ key b) :
    Increasing key (keepLast key l) := by
  induction l using keepLast.induct key with
  | case1 => exact List.Pairwise.nil
  | case2 a => exact pairwise_singleton ..
  | case3 a b rest heq ih =>
    rw [keepLast, if_pos heq]
    exact ih (pairwise_cons.mp h).2
  | case4 a b rest hne ih =>
    obtain ⟨ha, htail⟩ := pairwise_cons.mp h
    rw [keepLast, if_neg hne]
    refine pairwise_cons.mpr ⟨?_, ih htail⟩
    have hab : key a < key b := lt_of_le_of_ne (ha b (mem_cons_self ..)) hne
    intro c hc
    rcases mem_cons.mp (mem_of_mem_keepLast hc) with hcb | hc
    · rw [hcb]
      exact hab
    · exact lt_of_lt_of_le hab ((pairwise_cons.mp htail).1 c hc)

variable {le : α → α → Bool}

section
variable (htrans : ∀ a b c, le a b → le b c → le a c)
include htrans

theorem filter_mergeSort (htotal : ∀ a b, le a b || le b a)
    (h : (l.filter fun a => key a = k).Pairwise fun a b => le a b) :
    (l.mergeSort le).filter (fun a => key a = k) = l.filter fun a => key a = k := by
  have hsub : Sublist (l.filter fun a => key a = k)
      ((l.mergeSort le).filter fun a => key a = k) := by
    have hle := (sublist_mergeSort htrans htotal h filter_sublist).filter
      fun a => decide (key a = k)
    simpa using hle
  exact (hsub.eq_of_length ((mergeSort_perm l le).filter _).length_eq.symm).symm

theorem last?_mergeSort (htotal : ∀ a b, le a b || le b a)
    (h : (l.filter fun a => key a = k).Pairwise fun a b => le a b) :
    last? key k (l.mergeSort le) = last? key k l := by
  rw [last?, filter_mergeSort htrans htotal h]
  rfl

theorem keepLast_mergeSort
    (htotal : ∀ a b, le a b || le b a) (hkey : ∀ a b, le a b → key a ≤ key b)
    (h : ∀ k, (l.filter fun a => key a = k).Pairwise fun a b => le a b) :
    Increasing key (keepLast key (l.mergeSort le)) ∧
      ∀ k, last? key k (keepLast key (l.mergeSort le)) = last? key k l := by
  refine ⟨keepLast_increasing ?_, fun k => ?_⟩
  · exact (pairwise_mergeSort htrans htotal l).imp fun hab => hkey _ _ hab
  · rw [last?_keepLast, last?_mergeSort htrans htotal (h k)]

end

theorem keepLast_mergeSort_key (l : List α) :
    Increasing key (keepLast key (l.mergeSort fun a b => key a ≤ key b)) ∧
      ∀ k, last? key k (keepLast key (l.mergeSort fun a b => key a ≤ key b)) = last? key k l := by
  refine keepLast_mergeSort key_le_trans key_le_total (fun _ _ => of_decide_eq_true) fun k => ?_
  refine pairwise_of_forall_mem_list fun a ha b hb => decide_eq_true (le_of_eq ?_)
  have ha := of_decide_eq_true (mem_filter.mp ha).2
  have hb := of_decide_eq_true (mem_filter.mp hb).2
  exact ha.trans hb.symm

section InPlace
variable (key)

def runEnd (l : List α) (i : Nat) (k : κ) : Nat :=
  i + ((l.drop (i + 1)).takeWhile fun a => key a = k).length

def moveTo (l : List α) (source target : Nat) : List α :=
  if target = source then l
  else match l[source]? with
    | none => l
    | some a => l.set target a

@[simp] theorem moveTo_length (l : List α) (source target : Nat) :
    (moveTo l source target).length = l.length := by
  unfold moveTo
  split
  · rfl
  · split <;> simp

/-- Moves the last element of every run to the front, with a cursor for reading and one for
writing, and cuts off the rest. -/
def compactLoop (l : List α) (write read : Nat) : List α :=
  match h : l[read]? with
  | none => l.take write
  | some a =>
    compactLoop (moveTo l (runEnd key l read (key a)) write) (write + 1)
      (runEnd key l read (key a) + 1)
termination_by l.length - read
decreasing_by
  have hread := (List.getElem?_eq_some_iff.mp h).1
  rw [moveTo_length, runEnd]
  omega

variable {key}

theorem moveTo_eq {source target : Nat} (ha : l[source]? = some a)
    (htarget : target ≤ source) : moveTo l source target = l.set target a := by
  unfold moveTo
  split
  · rename_i heq
    subst heq
    obtain ⟨hlt, rfl⟩ := List.getElem?_eq_some_iff.mp ha
    exact (List.set_getElem_self hlt).symm
  · rw [ha]

theorem moveTo_run (out mid run left : List α) (a : α) :
    moveTo (out ++ mid ++ a :: (run ++ left)) ((out ++ mid).length + run.length) out.length =
      (out ++ [run.getLastD a]) ++ (mid ++ a :: run).tail ++ left := by
  have hlast : (out ++ mid ++ a :: (run ++ left))[(out ++ mid).length + run.length]? =
      some (run.getLastD a) := by
    have hrun : (a :: run)[run.length]? = some (run.getLastD a) := by
      rw [getLastD_eq_getLast?, ← getLast?_cons, getLast?_eq_getElem?]
      rfl
    rw [getElem?_append_right (Nat.le_add_right ..), Nat.add_sub_cancel_left,
      ← cons_append, getElem?_append_left (Nat.lt_succ_self _), hrun]
  obtain ⟨b, rest, hrest⟩ : ∃ b rest, mid ++ a :: run = b :: rest :=
    exists_cons_of_ne_nil (by simp)
  rw [moveTo_eq hlast (by simp only [length_append]; omega), ← cons_append,
    append_assoc, ← append_assoc mid, hrest, cons_append,
    set_append_right _ _ (Nat.le_refl _), Nat.sub_self]
  simp

theorem compactLoop_eq (out mid rest : List α) :
    compactLoop key (out ++ mid ++ rest) out.length (out ++ mid).length =
      out ++ lastOfRuns key rest := by
  induction hn : rest.length using Nat.strongRecOn generalizing out mid rest with
  | ind n ih =>
    cases rest with
    | nil =>
      rw [compactLoop]
      split
      · simp [lastOfRuns]
      · rename_i hb
        simp at hb
    | cons a tail =>
      let run := tail.takeWhile fun b => key b = key a
      let left := tail.dropWhile fun b => key b = key a
      have htail : run ++ left = tail := takeWhile_append_dropWhile
      have hread : (out ++ mid ++ a :: tail)[(out ++ mid).length]? = some a := by simp
      have hend : runEnd key (out ++ mid ++ a :: tail) (out ++ mid).length (key a) =
          (out ++ mid).length + run.length := by
        have hdrop : (out ++ mid ++ a :: tail).drop ((out ++ mid).length + 1) = tail := by
          rw [← drop_drop, drop_left]
          rfl
        rw [runEnd, hdrop]
      have hleft : left.length < n := by
        rw [← hn, ← htail, length_cons, length_append]
        omega
      have hcursor : ((out ++ [run.getLastD a]) ++ (mid ++ a :: run).tail).length =
          (out ++ mid).length + run.length + 1 := by
        simp only [length_append, length_tail, length_cons, length_nil]
        omega
      rw [compactLoop]
      split
      · rename_i hnone
        rw [hread] at hnone
        cases hnone
      rename_i b hb
      obtain rfl := Option.some.inj (hread.symm.trans hb)
      have hstep := ih left.length hleft (out ++ [run.getLastD a]) (mid ++ a :: run).tail left rfl
      rw [hcursor, length_append, length_singleton] at hstep
      rw [hend, ← htail, moveTo_run, hstep, htail, lastOfRuns, append_assoc]
      rfl

theorem compactLoop_zero (l : List α) : compactLoop key l 0 0 = keepLast key l := by
  rw [← lastOfRuns_eq_keepLast]
  exact compactLoop_eq [] [] l

end InPlace

end KeepLast
