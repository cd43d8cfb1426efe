import Chronoxide.Collections.AvlMap

/-! Visits to a range of keys in a balanced tree. A visit of a tree with entries needs a key that is not
below the range: without one it pops an empty stack. -/

namespace AvlMap
open List

structure RangeErrors (ε : Type) where
  reversed : ε
  traversalHeight : ε
  underflow : ε

namespace Tree

variable {κ ν ε : Type} [LinearOrder κ]

section
variable (C : Checks ε) (R : RangeErrors ε) (capacity : Nat) (lower upper : κ)

def seek : Tree κ ν → List (Frame κ ν) → Except ε (List (Frame κ ν))
  | nil, stack => .ok stack
  | node key value left right height entries, stack => do
    validateNode C left right height entries
    if key < lower then seek right stack
    else do
      if ¬ stack.length < capacity then throw R.traversalHeight
      seek left (⟨key, value, right⟩ :: stack)

/-- The loop of a visit; it runs once for every entry of the range, and stops behind it. -/
def visitRange : Nat → Tree κ ν → List (Frame κ ν) → List (κ × ν) → Except ε (List (κ × ν))
  | 0, _, _, visited => .ok visited
  | fuel + 1, current, stack, visited =>
    if current.isNil && stack.isEmpty then .ok visited
    else
      match seek C R capacity lower current stack with
      | .error error => .error error
      | .ok [] => .error R.underflow
      | .ok (frame :: stack) =>
        if upper < frame.key then .ok visited
        else visitRange fuel frame.right stack (visited ++ [(frame.key, frame.value)])

end

variable {C : Checks ε} {R : RangeErrors ε} {capacity : Nat} {lower upper : κ} {t : Tree κ ν}

theorem filter_eq_nil_of_lt {l : List (κ × ν)} (h : ∀ e ∈ l, e.1 < lower) :
    l.filter (fun e => lower ≤ e.1) = [] :=
  filter_eq_nil_iff.mpr fun e he hle => absurd (of_decide_eq_true hle) (h e he).not_ge

theorem filter_eq_self_of_le {l : List (κ × ν)} (h : ∀ e ∈ l, lower ≤ e.1) :
    l.filter (fun e => lower ≤ e.1) = l :=
  filter_eq_self.mpr fun e he => decide_eq_true (h e he)

theorem seek_ok {stack : List (Frame κ ν)} (h : Ready C capacity t stack)
    (hsorted : Sorted t.toList) :
    ∃ frames, seek C R capacity lower t stack = .ok (frames ++ stack) ∧
      pending frames = t.toList.filter (fun e => lower ≤ e.1) ∧
      Fits C capacity (frames ++ stack) := by
  induction t generalizing stack with
  | nil => exact ⟨[], rfl, rfl, h.fits⟩
  | node key value left right height entries ihLeft ihRight =>
    obtain ⟨hvalid, hless, hpushed, hdropped⟩ := h.node
    rw [toList] at hsorted ⊢
    obtain ⟨hleft, hrest, hcross⟩ := pairwise_append.mp hsorted
    obtain ⟨habove, hright⟩ := pairwise_cons.mp hrest
    rw [seek, hvalid]
    by_cases hkey : key < lower
    · -- nothing up to this node is in the range
      obtain ⟨frames, hseek, hpending, hfits⟩ := ihRight hdropped hright
      have hbelow : ∀ e ∈ left.toList, e.1 < lower := fun e he =>
        (hcross e he _ mem_cons_self).trans hkey
      refine ⟨frames, ?_, ?_, hfits⟩
      · rw [← hseek]
        simp [bind, Except.bind, hkey]
      · rw [hpending, filter_append, filter_eq_nil_of_lt hbelow, nil_append,
          filter_cons_of_neg (by simpa using hkey)]
    obtain ⟨frames, hseek, hpending, hfits⟩ := ihLeft hpushed hleft
    have hin : ∀ e ∈ (key, value) :: right.toList, lower ≤ e.1 := forall_mem_cons.mpr
      ⟨not_lt.mp hkey, fun e he => (not_lt.mp hkey).trans (habove e he).le⟩
    refine ⟨frames ++ [⟨key, value, right⟩], ?_, ?_, ?_⟩
    · rw [← append_cons, ← hseek]
      simp [bind, Except.bind, hless, hkey]
    · rw [filter_append, ← hpending, filter_eq_self_of_le hin, pending_append]
      simp [pending]
    · rwa [← append_cons]

theorem visitRange_ok (fuel : Nat) {stack : List (Frame κ ν)} {visited : List (κ × ν)}
    (hready : Ready C capacity t stack) (hsorted : Sorted (t.toList ++ pending stack))
    (hpending : ∀ e ∈ pending stack, lower ≤ e.1)
    (hreach : t.toList ++ pending stack ≠ [] → ∃ e ∈ t.toList ++ pending stack, lower ≤ e.1)
    (hfuel : (t.toList ++ pending stack).length < fuel) :
    visitRange C R capacity lower upper fuel t stack visited =
      .ok (visited ++ (t.toList ++ pending stack).filter (fun e => lower ≤ e.1 ∧ e.1 ≤ upper)) := by
  induction fuel generalizing t stack visited with
  | zero => omega
  | succ fuel ih =>
    obtain ⟨frames, hseek, hframes, hfits⟩ := @seek_ok _ _ _ _ C R capacity lower t stack hready
      (pairwise_append.mp hsorted).1
    have hall : pending (frames ++ stack) =
        (t.toList ++ pending stack).filter (fun e => lower ≤ e.1) := by
      rw [filter_append, filter_eq_self_of_le hpending, ← hframes, pending_append]
    have hrange : (t.toList ++ pending stack).filter (fun e => lower ≤ e.1 ∧ e.1 ≤ upper) =
        (pending (frames ++ stack)).filter (fun e => e.1 ≤ upper) := by
      rw [hall, filter_filter]
      simp [Bool.decide_and, Bool.and_comm]
    unfold visitRange
    split
    · rename_i hdone
      rw [Bool.and_eq_true, List.isEmpty_iff] at hdone
      obtain ⟨hnil, rfl⟩ := hdone
      cases t with
      | nil => simp [toList, pending]
      | node => cases hnil
    rename_i hmore
    rw [hseek, hrange]
    cases hstack : frames ++ stack with
    | nil =>
      -- a tree with a key that is not below the range leaves a frame
      have hsome : t.toList ++ pending stack ≠ [] := by
        obtain ⟨rfl, rfl⟩ := append_eq_nil_iff.mp hstack
        cases t with
        | nil => exact absurd rfl hmore
        | node => simp [toList]
      obtain ⟨e, he, hle⟩ := hreach hsome
      have hmem : e ∈ (t.toList ++ pending stack).filter fun e => lower ≤ e.1 :=
        mem_filter.mpr ⟨he, decide_eq_true hle⟩
      rw [← hall, hstack] at hmem
      cases hmem
    | cons frame rest =>
      rw [hstack] at hfits hall
      obtain ⟨later, hlater⟩ : ∃ later, later = frame.right.toList ++ pending rest := ⟨_, rfl⟩
      have hlist : pending (frame :: rest) = (frame.key, frame.value) :: later := hlater ▸ rfl
      have hsub : ((frame.key, frame.value) :: later).Sublist (t.toList ++ pending stack) := by
        rw [← hlist, hall]
        exact filter_sublist
      obtain ⟨hhead, htail⟩ := pairwise_cons.mp (hsorted.sublist hsub)
      have hkey : lower ≤ frame.key := by
        have hmem : (frame.key, frame.value) ∈ pending (frame :: rest) := by
          exact mem_cons_self
        rw [hall] at hmem
        exact of_decide_eq_true (mem_filter.mp hmem).2
      have habove : ∀ e ∈ later, lower ≤ e.1 := fun e he => hkey.trans (hhead e he).le
      dsimp only
      rw [hlist]
      by_cases hupper : upper < frame.key
      · have hbehind : ((frame.key, frame.value) :: later).filter (fun e => e.1 ≤ upper) = [] := by
          refine filter_eq_nil_iff.mpr fun e he hle => ?_
          have hle := of_decide_eq_true hle
          rcases mem_cons.mp he with rfl | he
          · exact absurd hle hupper.not_ge
          · exact absurd hle (hupper.trans (hhead e he)).not_ge
        rw [if_pos hupper, hbehind, append_nil]
      have hfew : later.length < fuel := by
        have hlength := hsub.length_le
        rw [length_cons] at hlength
        omega
      have hreach' : later ≠ [] → ∃ e ∈ later, lower ≤ e.1 :=
        fun hne => (exists_mem_of_ne_nil _ hne).imp fun e he => ⟨he, habove e he⟩
      have hfilter : later.filter (fun e => lower ≤ e.1 ∧ e.1 ≤ upper) =
          later.filter (fun e => e.1 ≤ upper) := by
        refine filter_congr fun e he => ?_
        simp [habove e he, true_and]
      subst hlater
      rw [if_neg hupper, ih hfits.ready htail
        (fun e he => habove e (mem_append_right _ he)) hreach' hfew, hfilter,
        filter_cons_of_pos (by simpa using not_lt.mp hupper), ← append_cons]

theorem visitRange_underflows (fuel : Nat) (hw : t.Wf) (hentries : t.entries < C.entryBound)
    (hsorted : Sorted t.toList) (hbelow : ∀ e ∈ t.toList, e.1 < lower) (hne : t.isNil = false) :
    visitRange C R t.height lower upper (fuel + 1) t [] [] = .error R.underflow := by
  obtain ⟨frames, hseek, hframes, -⟩ := @seek_ok _ _ _ _ C R t.height lower t []
    (ready_root hw hentries) hsorted
  rw [filter_eq_nil_of_lt hbelow] at hframes
  have hnone : frames = [] := by
    cases frames with
    | nil => rfl
    | cons frame frames => simp [pending] at hframes
  rw [hnone] at hseek
  simp [visitRange, hne, hseek]

end Tree

namespace PersistentMap

variable {κ ν ε : Type} [LinearOrder κ] {C : Checks ε} (m : PersistentMap C κ ν)

def visitRange (R : RangeErrors ε) (lower upper : κ) : Except ε (List (κ × ν)) :=
  m.root.visitRange C R m.root.height lower upper (m.root.size + 1) [] []

-- The source visits the range twice; the first visit only counts for the reservation.
def rangeEntries (R : RangeErrors ε) (lower upper : κ) : Except ε (List (κ × ν)) :=
  if upper < lower then .error R.reversed
  else m.root.visitRange C R m.root.height lower upper (m.root.size + 1) [] []

variable (R : RangeErrors ε)

theorem visitRange_ok {lower upper : κ} (hreach : m.toList ≠ [] → ∃ e ∈ m.toList, lower ≤ e.1) :
    m.visitRange R lower upper = .ok (m.toList.filter fun e => lower ≤ e.1 ∧ e.1 ≤ upper) := by
  have hnil : m.root.toList ++ Tree.pending [] = m.toList := append_nil _
  have hvisit : m.visitRange R lower upper =
      .ok ([] ++ (m.root.toList ++ Tree.pending []).filter
        fun e => lower ≤ e.1 ∧ e.1 ≤ upper) :=
    Tree.visitRange_ok _ (Tree.ready_root m.wf m.bounded) (hnil ▸ m.sorted_toList)
      (by simp [Tree.pending]) (hnil.symm ▸ hreach) (by simp [Tree.pending, Tree.size_eq])
  rwa [hnil, nil_append] at hvisit

theorem visitRange_ok_iff (lower upper : κ) :
    m.visitRange R lower upper = .ok (m.toList.filter fun e => lower ≤ e.1 ∧ e.1 ≤ upper) ↔
      (m.toList ≠ [] → ∃ e ∈ m.toList, lower ≤ e.1) := by
  refine ⟨fun hvisit hne => ?_, m.visitRange_ok R⟩
  by_contra hnone
  have hbelow : ∀ e ∈ m.root.toList, e.1 < lower := by
    intro e he
    exact lt_of_not_ge fun hle => hnone ⟨e, he, hle⟩
  have hroot : m.root.isNil = false := by
    cases hroot : m.root with
    | nil => exact absurd (root_eq_nil_iff.mp hroot) hne
    | node => rfl
  rw [visitRange, Tree.visitRange_underflows _ m.wf m.bounded m.ordered hbelow hroot] at hvisit
  cases hvisit

theorem rangeEntries_ok {lower upper : κ} (h : lower ≤ upper) {e : κ × ν} (he : e ∈ m.toList)
    (hlower : lower ≤ e.1) :
    m.rangeEntries R lower upper = .ok (m.toList.filter fun e => lower ≤ e.1 ∧ e.1 ≤ upper) := by
  rw [rangeEntries, if_neg h.not_gt]
  exact m.visitRange_ok R fun _ => ⟨e, he, hlower⟩

end PersistentMap

end AvlMap
