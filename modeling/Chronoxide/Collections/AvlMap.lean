import Chronoxide.Collections.AvlTree

/-! Balanced trees as maps: insertion and removal change the sorted list of entries, and a traversal
returns it. -/

namespace AvlMap
open Codec List

namespace Tree

variable {κ ν ε : Type} [LinearOrder κ] {C : Checks ε} {k : κ} {v : ν} {l r t t' : Tree κ ν}

def Ordered (t : Tree κ ν) : Prop := Sorted t.toList

theorem ordered_node {h e : Nat} : (node k v l r h e).Ordered ↔ l.Ordered ∧ r.Ordered ∧
    (∀ a ∈ l.toList, a.1 < k) ∧ (∀ b ∈ r.toList, k < b.1) := by
  unfold Ordered Sorted
  rw [toList, pairwise_append, pairwise_cons]
  constructor
  · rintro ⟨hl, ⟨hk, hr⟩, hall⟩
    exact ⟨hl, hr, fun a ha => hall a ha _ mem_cons_self, hk⟩
  · rintro ⟨hl, hr, hleft, hright⟩
    exact ⟨hl, ⟨hright, hr⟩, fun a ha => forall_mem_cons.mpr
      ⟨hleft a ha, fun b hb => (hleft a ha).trans (hright b hb)⟩⟩

variable {key : κ}

theorem get_eq_some_iff {value : ν} (h : t.Ordered) :
    t.get key = some value ↔ (key, value) ∈ t.toList := by
  induction t with
  | nil => simp [get, toList]
  | node k v l r height entries ihLeft ihRight =>
    obtain ⟨hl, hr, hleft, hright⟩ := ordered_node.mp h
    rw [get, toList, mem_append, mem_cons]
    split
    · rename_i hlt
      rw [ihLeft hl]
      constructor
      · exact .inl
      rintro (hmem | heq | hmem)
      · exact hmem
      · exact absurd (Prod.mk.inj heq).1 hlt.ne
      · exact absurd (hright _ hmem) hlt.asymm
    split
    · rename_i hlt
      rw [ihRight hr]
      constructor
      · exact fun hmem => .inr (.inr hmem)
      rintro (hmem | heq | hmem)
      · exact absurd (hleft _ hmem) hlt.asymm
      · exact absurd (Prod.mk.inj heq).1 hlt.ne'
      · exact hmem
    rename_i hge hle
    obtain rfl : key = k := le_antisymm (not_lt.mp hle) (not_lt.mp hge)
    constructor
    · rintro heq
      exact .inr (.inl (by rw [Option.some.inj heq]))
    rintro (hmem | heq | hmem)
    · exact absurd (hleft _ hmem) (lt_irrefl _)
    · rw [(Prod.mk.inj heq).2]
    · exact absurd (hright _ hmem) (lt_irrefl _)

theorem insert_ok {value : ν} (hw : t.Wf) (hord : t.Ordered) (hok : insert C key value t = .ok t') :
    t'.Wf ∧ t'.toList = put key value t.toList ∧ t.height ≤ t'.height ∧
      t'.height ≤ t.height + 1 ∧ t'.entries < C.entryBound := by
  induction t generalizing t' with
  | nil =>
    obtain ⟨-, hbound, rfl⟩ := make_ok.mp hok
    exact ⟨wf_mk.mpr ⟨trivial, trivial, by simp, by simp⟩, rfl, by simp, by simp, hbound⟩
  | node k v l r height entries ihLeft ihRight =>
    obtain ⟨hl, hr, hleft, hright⟩ := ordered_node.mp hord
    obtain ⟨hlw, hrw, rfl, rfl, hle, hge⟩ := hw
    simp only [height_node] at *
    unfold insert at hok
    split at hok
    · rename_i hlt
      obtain ⟨left, hinsert, hok⟩ := except_bind_ok.mp hok
      obtain ⟨hw', hlist, hlow, hhigh, -⟩ := ihLeft hlw hl hinsert
      obtain ⟨h, hbound⟩ := rebuild_ok hw' hrw (by omega) (by omega) hok
      have := h.heights
      refine ⟨h.wf, ?_, by omega, by omega, hbound⟩
      rw [h.toList_eq, hlist, toList, put_append_left hlt]
    split at hok
    · rename_i hlt
      obtain ⟨right, hinsert, hok⟩ := except_bind_ok.mp hok
      obtain ⟨hw', hlist, hlow, hhigh, -⟩ := ihRight hrw hr hinsert
      obtain ⟨h, hbound⟩ := rebuild_ok hlw hw' (by omega) (by omega) hok
      have := h.heights
      refine ⟨h.wf, ?_, by omega, by omega, hbound⟩
      rw [h.toList_eq, hlist, toList, put_append_right fun a ha => (hleft a ha).trans hlt, put,
        if_neg hlt.asymm, if_pos hlt]
    rename_i hge' hle'
    obtain rfl : key = k := le_antisymm (not_lt.mp hle') (not_lt.mp hge')
    obtain ⟨-, hbound, rfl⟩ := make_ok.mp hok
    refine ⟨wf_mk.mpr ⟨hlw, hrw, hle, hge⟩, ?_, by simp, by simp, hbound⟩
    rw [toList_mk, toList, put_append_right hleft, put, if_neg (lt_irrefl _),
      if_neg (lt_irrefl _)]

theorem entries_insert_le {value : ν} (hw : t.Wf) (hord : t.Ordered)
    (h : insert C key value t = .ok t') : t'.entries ≤ t.entries + 1 := by
  obtain ⟨hw', hlist, -⟩ := insert_ok hw hord h
  rw [hw'.entries_eq, hw.entries_eq, hlist]
  exact length_put_le ..

theorem insert_error {value : ν} {error : ε} (hw : t.Wf) (hord : t.Ordered)
    (hentries : t.entries < C.entryBound) (h : insert C key value t = .error error) :
    (error = C.sumOverflows ∨ error = C.entriesOverflow) ∧ C.entryBound ≤ t.entries + 1 := by
  induction t with
  | nil =>
    have hroom := hw.height_add_two_lt hentries
    exact make_error (by simp only [height_nil]; omega) h
  | node k v l r height entries ihLeft ihRight =>
    have hroom := hw.height_add_two_lt hentries
    obtain ⟨hl, hr, -, -⟩ := ordered_node.mp hord
    obtain ⟨hlw, hrw, rfl, rfl, hle, hge⟩ := hw
    simp only [height_node, entries_node] at hroom hentries ⊢
    unfold insert at h
    split at h
    · cases hinsert : insert C key value l with
      | error error' =>
        rw [hinsert] at h
        obtain ⟨herror, hlarge⟩ := ihLeft hlw hl (by omega) (hinsert.trans h)
        exact ⟨herror, by omega⟩
      | ok left =>
        obtain ⟨hw', -, hlow, hhigh, -⟩ := insert_ok hlw hl hinsert
        have hgrown := entries_insert_le hlw hl hinsert
        rw [hinsert] at h
        obtain ⟨herror, hlarge⟩ := rebuild_error hw' hrw (by omega) (by omega) (by omega) h
        exact ⟨herror, by omega⟩
    split at h
    · cases hinsert : insert C key value r with
      | error error' =>
        rw [hinsert] at h
        obtain ⟨herror, hlarge⟩ := ihRight hrw hr (by omega) (hinsert.trans h)
        exact ⟨herror, by omega⟩
      | ok right =>
        obtain ⟨hw', -, hlow, hhigh, -⟩ := insert_ok hrw hr hinsert
        have hgrown := entries_insert_le hrw hr hinsert
        rw [hinsert] at h
        obtain ⟨herror, hlarge⟩ := rebuild_error hlw hw' (by omega) (by omega) (by omega) h
        exact ⟨herror, by omega⟩
    · obtain ⟨herror, hlarge⟩ := make_error (by omega) h
      exact ⟨herror, by omega⟩

def without (key : κ) (l : List (κ × ν)) : List (κ × ν) := l.filter fun e => e.1 ≠ key

def has (key : κ) (l : List (κ × ν)) : Bool := l.any fun e => e.1 = key

variable (front back : List (κ × ν))

theorem without_append : without key (front ++ back) = without key front ++ without key back :=
  filter_append _ _

theorem has_append : has key (front ++ back) = (has key front || has key back) :=
  any_append

variable {entries : List (κ × ν)}

theorem without_of_forall (h : ∀ a ∈ entries, a.1 ≠ key) : without key entries = entries :=
  filter_eq_self.mpr fun a ha => decide_eq_true (h a ha)

theorem has_of_forall (h : ∀ a ∈ entries, a.1 ≠ key) : has key entries = false :=
  any_eq_false.mpr fun a ha => by simp [h a ha]

theorem without_of_not_has (h : has key entries = false) : without key entries = entries :=
  without_of_forall fun a ha => by simpa using any_eq_false.mp h a ha

structure Removed (C : Checks ε) (key : κ) (t t' : Tree κ ν) : Prop where
  remove_eq : remove C key t = .ok (t', has key t.toList)
  wf : t'.Wf
  toList_eq : t'.toList = without key t.toList
  height_le : t'.height ≤ t.height
  le_height : t.height ≤ t'.height + 1

theorem entries_without_le (key : κ) (hw : t.Wf) (hw' : t'.Wf)
    (hlist : t'.toList = without key t.toList) : t'.entries ≤ t.entries := by
  rw [hw.entries_eq, hw'.entries_eq, hlist]
  exact length_filter_le _ _

theorem exists_removed (key : κ) (hw : t.Wf) (hord : t.Ordered)
    (hentries : t.entries < C.entryBound) : ∃ t', Removed C key t t' := by
  induction t generalizing key with
  | nil => exact ⟨nil, rfl, trivial, rfl, le_rfl, by simp⟩
  | node k v l r height entries ihLeft ihRight =>
    obtain ⟨hl, hr, hleft, hright⟩ := ordered_node.mp hord
    have hbound := hw.height_add_two_lt hentries
    obtain ⟨hlw, hrw, rfl, rfl, hle, hge⟩ := id hw
    simp only [height_node, entries_node] at hbound hentries
    by_cases hlt : key < k
    · -- the key can only be on the left
      obtain ⟨shorter, hremove, hw', hlist', hlow, hhigh⟩ := ihLeft key hlw hl (by omega)
      have hout : ∀ b ∈ (k, v) :: r.toList, b.1 ≠ key := forall_mem_cons.mpr
        ⟨hlt.ne', fun b hb => (hlt.trans (hright b hb)).ne'⟩
      have hlist : without key (l.toList ++ (k, v) :: r.toList) =
          without key l.toList ++ (k, v) :: r.toList := by
        rw [without_append, without_of_forall hout]
      have hhas : has key (l.toList ++ (k, v) :: r.toList) = has key l.toList := by
        rw [has_append, has_of_forall hout, Bool.or_false]
      cases hpresent : has key l.toList with
      | false =>
        refine ⟨_, ?_, hw, ?_, le_rfl, Nat.le_succ _⟩
        · rw [toList, hhas, hpresent]
          unfold remove
          rw [if_pos hlt, hremove, hpresent]
          rfl
        · rw [toList, hlist, without_of_not_has hpresent]
      | true =>
        have hfew := entries_without_le key hlw hw' hlist'
        obtain ⟨t', hmake, hbalance, h⟩ := exists_rebuilt (C := C) hw' hrw (by omega) (by omega)
          (by omega) (by omega) k v
        have := h.heights
        refine ⟨t', ?_, h.wf, ?_, by rw [height_node]; omega, by rw [height_node]; omega⟩
        · rw [toList, hhas, hpresent]
          unfold remove
          rw [if_pos hlt, hremove, hpresent]
          simp only [bind, Except.bind, hmake, hbalance]
          rfl
        · rw [h.toList_eq, toList, hlist, hlist']
    by_cases hgt : k < key
    · obtain ⟨shorter, hremove, hw', hlist', hlow, hhigh⟩ := ihRight key hrw hr (by omega)
      have hout : ∀ a ∈ l.toList ++ [(k, v)], a.1 ≠ key := forall_mem_append.mpr
        ⟨fun a ha => ((hleft a ha).trans hgt).ne, forall_mem_singleton.mpr hgt.ne⟩
      have hlist : without key (l.toList ++ (k, v) :: r.toList) =
          l.toList ++ (k, v) :: without key r.toList := by
        rw [append_cons, without_append, without_of_forall hout, ← append_cons]
      have hhas : has key (l.toList ++ (k, v) :: r.toList) = has key r.toList := by
        rw [append_cons, has_append, has_of_forall hout, Bool.false_or]
      cases hpresent : has key r.toList with
      | false =>
        refine ⟨_, ?_, hw, ?_, le_rfl, Nat.le_succ _⟩
        · rw [toList, hhas, hpresent]
          unfold remove
          rw [if_neg hlt, if_pos hgt, hremove, hpresent]
          rfl
        · rw [toList, hlist, without_of_not_has hpresent]
      | true =>
        have hfew := entries_without_le key hrw hw' hlist'
        obtain ⟨t', hmake, hbalance, h⟩ := exists_rebuilt (C := C) hlw hw' (by omega) (by omega)
          (by omega) (by omega) k v
        have := h.heights
        refine ⟨t', ?_, h.wf, ?_, by rw [height_node]; omega, by rw [height_node]; omega⟩
        · rw [toList, hhas, hpresent]
          unfold remove
          rw [if_neg hlt, if_pos hgt, hremove, hpresent]
          simp only [bind, Except.bind, hmake, hbalance]
          rfl
        · rw [h.toList_eq, toList, hlist, hlist']
    obtain rfl : key = k := le_antisymm (not_lt.mp hgt) (not_lt.mp hlt)
    have hlist : without key (l.toList ++ (key, v) :: r.toList) = l.toList ++ r.toList := by
      rw [append_cons, without_append, without_append,
        without_of_forall fun a ha => (hleft a ha).ne,
        without_of_forall fun b hb => (hright b hb).ne']
      simp [without]
    have hhas : has key (l.toList ++ (key, v) :: r.toList) = true := by
      simp [has]
    cases l with
    | nil =>
      cases r with
      | nil =>
        refine ⟨nil, ?_, trivial, ?_, by simp, by simp⟩
        · rw [toList, hhas, remove, if_neg hlt, if_neg hgt]
        · exact hlist.symm
      | node rk rv rl rr rh re =>
        refine ⟨_, ?_, hrw, ?_, by simp, by simp⟩
        · rw [toList, hhas, remove, if_neg hlt, if_neg hgt]
          simp only [balance_of_wf hrw]
          rfl
        · exact hlist.symm
    | node lk lv ll lr lh le =>
      cases r with
      | nil =>
        refine ⟨_, ?_, hlw, ?_, by simp, by simp⟩
        · rw [toList, hhas, remove, if_neg hlt, if_neg hgt]
          simp only [balance_of_wf hlw]
          rfl
        · exact (hlist.trans (append_nil _)).symm
      | node rk rv rl rr rh re =>
        obtain ⟨rest, hrest⟩ := toList_least (k := rk) (v := rv) (l := rl) (r := rr) rh re
        have hsorted : Sorted (least rk rv rl :: rest) := hrest ▸ hr
        obtain ⟨shorter, hremove, hw', hlist', hlow, hhigh⟩ :=
          ihRight (least rk rv rl).1 hrw hr (by omega)
        have hsuccessor : has (least rk rv rl).1 (node rk rv rl rr rh re).toList = true := by
          rw [hrest]
          simp [has]
        have hshorter : shorter.toList = rest := by
          rw [hlist', hrest, without, filter_cons, if_neg (by simp)]
          exact without_of_forall fun b hb => ((pairwise_cons.mp hsorted).1 b hb).ne'
        have hfew := entries_without_le _ hrw hw' hlist'
        obtain ⟨t', hmake, hbalance, h⟩ := exists_rebuilt (C := C) hlw hw' (by omega) (by omega)
          (by omega) (by omega) (least rk rv rl).1 (least rk rv rl).2
        have := h.heights
        refine ⟨t', ?_, h.wf, ?_, by rw [height_node]; omega, by rw [height_node]; omega⟩
        · rw [toList, hhas, remove, if_neg hlt, if_neg hgt]
          dsimp only
          rw [hremove, hsuccessor]
          simp only [bind, Except.bind, hmake, hbalance]
          rfl
        · refine Eq.trans ?_ hlist.symm
          rw [h.toList_eq, hshorter, hrest]

def pending (stack : List (Frame κ ν)) : List (κ × ν) :=
  stack.flatMap fun frame => (frame.key, frame.value) :: frame.right.toList

def Fits (C : Checks ε) (capacity : Nat) : List (Frame κ ν) → Prop
  | [] => True
  | frame :: stack => frame.right.Wf ∧ frame.right.entries < C.entryBound ∧
      stack.length + frame.right.height ≤ capacity ∧ Fits C capacity stack

structure Ready (C : Checks ε) (capacity : Nat) (t : Tree κ ν) (stack : List (Frame κ ν)) : Prop where
  wf : t.Wf
  entries : t.entries < C.entryBound
  height : stack.length + t.height ≤ capacity
  fits : Fits C capacity stack

section
omit [LinearOrder κ]
variable {capacity : Nat} {stack frames : List (Frame κ ν)}

theorem Fits.ready {frame : Frame κ ν} (h : Fits C capacity (frame :: stack)) :
    Ready C capacity frame.right stack :=
  ⟨h.1, h.2.1, h.2.2.1, h.2.2.2⟩

theorem ready_root (hw : t.Wf) (hentries : t.entries < C.entryBound) : Ready C t.height t [] :=
  ⟨hw, hentries, by simp, trivial⟩

theorem Ready.node {key : κ} {value : ν} {height entries : Nat}
    (h : Ready C capacity (node key value l r height entries) stack) :
    validateNode C l r height entries = .ok () ∧ stack.length < capacity ∧
      Ready C capacity l (⟨key, value, r⟩ :: stack) ∧ Ready C capacity r stack := by
  obtain ⟨hw, hentries, hheight, hfits⟩ := h
  have hvalid := validateNode_ok hw hentries
  obtain ⟨hlw, hrw, rfl, rfl, -, -⟩ := hw
  simp only [height_node, entries_node] at hheight hentries
  have hright : Ready C capacity r stack := ⟨hrw, by omega, by omega, hfits⟩
  refine ⟨hvalid, by omega, ⟨hlw, by omega, ?_, hrw, hright.entries, hright.height, hfits⟩, hright⟩
  rw [length_cons]
  omega

theorem pending_append : pending (frames ++ stack) = pending frames ++ pending stack :=
  flatMap_append

theorem descend_ok (h : Ready C capacity t stack) :
    ∃ frames, descend C capacity t stack = .ok (frames ++ stack) ∧ pending frames = t.toList ∧
      Fits C capacity (frames ++ stack) := by
  induction t generalizing stack with
  | nil => exact ⟨[], rfl, rfl, h.fits⟩
  | node key value left right height entries ihLeft _ =>
    obtain ⟨hvalid, hless, hleft, -⟩ := h.node
    obtain ⟨frames, hdescend, hpending, hfits⟩ := ihLeft hleft
    refine ⟨frames ++ [⟨key, value, right⟩], ?_, ?_, ?_⟩
    · rw [descend, hvalid, ← append_cons, ← hdescend]
      simp [bind, Except.bind, hless]
    · rw [pending_append, toList, ← hpending]
      simp [pending]
    · rwa [← append_cons]

end

theorem traverse_ok {capacity : Nat} (fuel : Nat) {stack : List (Frame κ ν)} {previous : Option κ}
    {visited : List (κ × ν)} (hready : Ready C capacity t stack)
    (hsorted : Sorted (t.toList ++ pending stack))
    (hprevious : ∀ key ∈ previous, ∀ e ∈ t.toList ++ pending stack, key < e.1)
    (hfuel : (t.toList ++ pending stack).length < fuel) :
    traverse C capacity fuel t stack previous visited =
      .ok (visited ++ (t.toList ++ pending stack)) := by
  induction fuel generalizing t stack previous visited with
  | zero => omega
  | succ fuel ih =>
    obtain ⟨frames, hdescend, hpending, hfits⟩ := descend_ok hready
    have hall : pending (frames ++ stack) = t.toList ++ pending stack := by
      rw [pending_append, hpending]
    unfold traverse
    split
    · rename_i hdone
      rw [Bool.and_eq_true, List.isEmpty_iff] at hdone
      obtain ⟨hnil, rfl⟩ := hdone
      cases t with
      | nil => simp [toList, pending]
      | node => cases hnil
    rename_i hmore
    rw [hdescend]
    cases hframes : frames ++ stack with
    | nil =>
      -- only an empty tree on an empty stack leaves no frame
      obtain ⟨rfl, rfl⟩ := append_eq_nil_iff.mp hframes
      cases t with
      | nil => exact absurd rfl hmore
      | node => simp [pending, toList] at hpending
    | cons frame rest =>
      rw [hframes] at hfits
      have hlist : t.toList ++ pending stack =
          (frame.key, frame.value) :: (frame.right.toList ++ pending rest) := by
        rw [← hall, hframes, pending, flatMap_cons, cons_append]
        rfl
      rw [hlist] at hsorted hprevious hfuel
      obtain ⟨hhead, htail⟩ := pairwise_cons.mp hsorted
      dsimp only
      rw [if_pos fun key hkey => hprevious key hkey _ mem_cons_self, hlist]
      have hnext : ∀ key ∈ some frame.key, ∀ e ∈ frame.right.toList ++ pending rest,
          key < e.1 := by
        intro key hkey e he
        rw [← Option.mem_some_iff.mp hkey]
        exact hhead e he
      rw [ih hfits.ready htail hnext (by rw [length_cons] at hfuel; omega),
        ← append_cons]

theorem inOrder_ok (hw : t.Wf) (hord : t.Ordered) (hentries : t.entries < C.entryBound) :
    inOrder C none t = .ok t.toList := by
  have hsorted : Sorted (t.toList ++ pending []) := by
    rw [pending, flatMap_nil, append_nil]
    exact hord
  have htraverse : traverse C t.height (t.size + 1) t [] none [] =
      .ok ([] ++ (t.toList ++ pending [])) :=
    traverse_ok _ (ready_root hw hentries) hsorted (by simp) (by simp [pending, size_eq])
  unfold inOrder
  rw [htraverse]
  simp [bind, Except.bind, pending, hw.entries_eq, pure, Except.pure]

end Tree

/-- A balanced tree within the bounds, with increasing keys. -/
structure PersistentMap {ε : Type} (C : Checks ε) (κ ν : Type) [LinearOrder κ] where
  root : Tree κ ν
  wf : root.Wf
  ordered : root.Ordered
  bounded : root.entries < C.entryBound

namespace PersistentMap

variable {κ ν ε : Type} [LinearOrder κ] {C : Checks ε} {m m' : PersistentMap C κ ν} {k : κ} {v : ν}

variable (hbound : 0 < C.entryBound)

def empty : PersistentMap C κ ν :=
  ⟨.nil, trivial, List.Pairwise.nil, hbound⟩

variable (m)

def get (key : κ) : Option ν := m.root.get key

def toList : List (κ × ν) := m.root.toList

def insert (key : κ) (value : ν) : Except ε (PersistentMap C κ ν) :=
  match h : Tree.insert C key value m.root with
  | .error error => .error error
  | .ok root =>
    have hok := Tree.insert_ok m.wf m.ordered h
    .ok ⟨root, hok.1, by
      rw [Tree.Ordered, hok.2.1]
      exact Sorted.put m.ordered key value, hok.2.2.2.2⟩

def remove (key : κ) : Except ε (PersistentMap C κ ν × Bool) :=
  match h : Tree.remove C key m.root with
  | .error error => .error error
  | .ok (root, removed) =>
    have hroot : Tree.Removed C key m.root root := by
      obtain ⟨root', hremoved⟩ := Tree.exists_removed key m.wf m.ordered m.bounded
      rw [hremoved.remove_eq] at h
      exact (Prod.mk.inj (Except.ok.inj h)).1 ▸ hremoved
    .ok (⟨root, hroot.wf, by
      rw [Tree.Ordered, hroot.toList_eq]
      exact Sorted.erase m.ordered key,
      (Tree.entries_without_le key m.wf hroot.wf hroot.toList_eq).trans_lt m.bounded⟩, removed)

def inOrder (fault : Option ε) : Except ε (List (κ × ν)) :=
  m.root.inOrder C fault

theorem sorted_toList : Sorted m.toList := m.ordered

variable {m}

theorem mem_toList : (k, v) ∈ m.toList ↔ m.get k = some v :=
  (Tree.get_eq_some_iff m.ordered).symm

@[simp] theorem get_empty : (empty hbound : PersistentMap C κ ν).get k = none := rfl

theorem get_insert (h : m.insert k v = .ok m') (k' : κ) :
    m'.get k' = if k' = k then some v else m.get k' := by
  unfold insert at h
  split at h
  · cases h
  rename_i root hroot
  obtain ⟨-, hlist, -⟩ := Tree.insert_ok m.wf m.ordered hroot
  obtain rfl := Except.ok.inj h
  ext v'
  rw [← mem_toList, toList, hlist, mem_put m.ordered, Prod.mk.injEq]
  split
  · rename_i heq
    simp [heq, eq_comm]
  · rename_i hne
    simp only [hne, false_and, ne_eq, not_false_eq_true, and_true, false_or]
    exact mem_toList

theorem insert_error {error : ε} (h : m.insert k v = .error error) :
    (error = C.sumOverflows ∨ error = C.entriesOverflow) ∧ m.root.entries + 1 = C.entryBound := by
  unfold insert at h
  split at h
  · rename_i error' hroot
    obtain ⟨herror, hlarge⟩ := Tree.insert_error m.wf m.ordered m.bounded hroot
    exact ⟨Except.error.inj h ▸ herror, Nat.le_antisymm m.bounded hlarge⟩
  · cases h

variable (m)

theorem exists_remove (k : κ) : ∃ m', m.remove k = .ok (m', (m.get k).isSome) ∧
      (∀ k', m'.get k' = if k' = k then none else m.get k') := by
  obtain ⟨root, hremoved⟩ := Tree.exists_removed k m.wf m.ordered m.bounded
  have hhas : Tree.has k m.root.toList = (m.get k).isSome := by
    rw [Bool.eq_iff_iff, Option.isSome_iff_exists, Tree.has, any_eq_true]
    constructor
    · rintro ⟨⟨k', v⟩, hmem, heq⟩
      obtain rfl : k' = k := of_decide_eq_true heq
      exact ⟨v, mem_toList.mp hmem⟩
    · rintro ⟨v, hget⟩
      exact ⟨(k, v), mem_toList.mpr hget, decide_eq_true rfl⟩
  unfold remove
  split
  · rename_i herror
    rw [hremoved.remove_eq] at herror
    cases herror
  rename_i root' removed hroot
  obtain ⟨rfl, rfl⟩ := Prod.mk.inj (Except.ok.inj (hremoved.remove_eq.symm.trans hroot))
  refine ⟨_, congrArg (fun removed => Except.ok (_, removed)) hhas, fun k' => ?_⟩
  ext v'
  rw [← mem_toList, toList, hremoved.toList_eq, Tree.without, mem_filter]
  split
  · rename_i heq
    simp [heq]
  · rename_i hne
    simp only [ne_eq, hne, not_false_eq_true, decide_true, and_true]
    exact mem_toList

def keys : List κ := m.toList.map Prod.fst

theorem sorted_keys : m.keys.Pairwise (· < ·) :=
  pairwise_map.mpr m.sorted_toList

theorem nodup_keys : m.keys.Nodup :=
  m.sorted_keys.imp fun h => h.ne

variable {m}

theorem mem_keys : k ∈ m.keys ↔ (m.get k).isSome := by
  rw [keys, mem_map, Option.isSome_iff_exists]
  constructor
  · rintro ⟨⟨k', v⟩, hmem, rfl⟩
    exact ⟨v, mem_toList.mp hmem⟩
  · rintro ⟨v, hget⟩
    exact ⟨(k, v), mem_toList.mpr hget, rfl⟩

@[simp] theorem keys_empty : (empty hbound : PersistentMap C κ ν).keys = [] := rfl

theorem keys_perm (hnone : m.get k = none)
    (hget : ∀ k', (m'.get k').isSome ↔ k' = k ∨ (m.get k').isSome) :
    m'.keys.Perm (k :: m.keys) := by
  have hnew : k ∉ m.keys := by
    rw [mem_keys, hnone]
    simp
  have hnodup := nodup_cons.mpr ⟨hnew, m.nodup_keys⟩
  refine (perm_ext_iff_of_nodup m'.nodup_keys hnodup).mpr fun k' => ?_
  rw [mem_keys, hget, mem_cons, mem_keys]

/-- The maps that insertions and removals make from the empty one, each with what it should hold. -/
inductive Reaches (hbound : 0 < C.entryBound) : PersistentMap C κ ν → (κ → Option ν) → Prop
  | empty : Reaches hbound (empty hbound) fun _ => none
  | insert {m m' : PersistentMap C κ ν} {contents : κ → Option ν} {key : κ} {value : ν}
      (reaches : Reaches hbound m contents) (inserts : m.insert key value = .ok m') :
      Reaches hbound m' fun k => if k = key then some value else contents k
  | remove {m m' : PersistentMap C κ ν} {contents : κ → Option ν} {key : κ} {removed : Bool}
      (reaches : Reaches hbound m contents) (removes : m.remove key = .ok (m', removed)) :
      Reaches hbound m' fun k => if k = key then none else contents k

theorem Reaches.get_eq {hbound : 0 < C.entryBound} {contents : κ → Option ν}
    (h : Reaches hbound m contents) (key : κ) : m.get key = contents key := by
  induction h with
  | empty => rfl
  | insert _ hinsert ih => rw [get_insert hinsert, ih]
  | @remove m m' contents k removed _ hremove ih =>
    obtain ⟨rest, hrest, hget⟩ := exists_remove m k
    obtain ⟨rfl, -⟩ := Prod.mk.inj (Except.ok.inj (hremove.symm.trans hrest))
    rw [hget, ih]

theorem inOrder_none (m : PersistentMap C κ ν) : m.inOrder none = .ok m.toList :=
  Tree.inOrder_ok m.wf m.ordered m.bounded

/-- The map is a balanced search tree of the contents, and only a full one refuses an entry. -/
structure Holds (m : PersistentMap C κ ν) (contents : κ → Option ν) : Prop where
  get_eq : ∀ key, m.get key = contents key
  wf : m.root.Wf
  sorted : Sorted m.toList
  mem_iff : ∀ key value, (key, value) ∈ m.toList ↔ contents key = some value
  inOrder_eq : m.inOrder none = .ok m.toList
  inserts : ∀ key value error, m.insert key value = .error error →
    m.root.entries + 1 = C.entryBound
  removes : ∀ key, ∃ m', m.remove key = .ok (m', (contents key).isSome)

theorem Reaches.holds {hbound : 0 < C.entryBound} {contents : κ → Option ν}
    (h : Reaches hbound m contents) : m.Holds contents where
  get_eq := h.get_eq
  wf := m.wf
  sorted := m.sorted_toList
  mem_iff key value := by rw [mem_toList, h.get_eq]
  inOrder_eq := m.inOrder_none
  inserts key value error herror := (insert_error herror).2
  removes key := by
    obtain ⟨m', hremove, -⟩ := m.exists_remove key
    exact ⟨m', h.get_eq key ▸ hremove⟩

theorem root_eq_nil_iff : m.root = .nil ↔ m.toList = [] := by
  rw [toList]
  cases m.root with
  | nil => exact ⟨fun _ => rfl, fun _ => rfl⟩
  | node => simp [Tree.toList]

end PersistentMap

end AvlMap
