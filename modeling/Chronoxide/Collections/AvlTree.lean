import Chronoxide.Codec.Parser
import Mathlib.Algebra.Group.Nat.Defs
import Mathlib.Data.List.Lemmas
import Mathlib.Order.Defs.LinearOrder

/-! Persistent maps as balanced trees. Every node keeps its height and the number of its entries in
bounded counters, so that each construction of a node can fail; a traversal checks them again. -/

namespace AvlMap
open Codec List

inductive Tree (κ ν : Type) where
  | nil
  | node (key : κ) (value : ν) (left right : Tree κ ν) (height entries : Nat)

/-- The bounds of the counters and the errors of the checks. -/
structure Checks (ε : Type) where
  heightBound : Nat
  entryBound : Nat
  heightOverflows : ε
  sumOverflows : ε
  entriesOverflow : ε
  leftHeavy : ε
  rightHeavy : ε
  rotateLeft : ε
  rotateRight : ε
  successor : ε
  node : ε
  traversalHeight : ε
  underflow : ε
  unordered : ε
  entryCount : ε
  room : ∀ height, 2 ^ (height / 2) ≤ entryBound → height + 2 < heightBound

theorem room_of_bounds (height : Nat) (h : 2 ^ (height / 2) ≤ 2 ^ 64) : height + 2 < 2 ^ 16 := by
  have := (Nat.pow_le_pow_iff_right (by decide)).mp h
  omega

section Entries
variable {κ ν : Type} [LinearOrder κ]

def put (key : κ) (value : ν) : List (κ × ν) → List (κ × ν)
  | [] => [(key, value)]
  | e :: l =>
    if key < e.1 then (key, value) :: e :: l
    else if e.1 < key then e :: put key value l
    else (key, value) :: l

abbrev Sorted (l : List (κ × ν)) : Prop := l.Pairwise fun a b => a.1 < b.1

variable {k : κ} {v : ν} {e : κ × ν} {l front back : List (κ × ν)}

theorem put_append_left (h : k < e.1) :
    put k v (front ++ e :: back) = put k v front ++ e :: back := by
  induction front with
  | nil => simp [put, h]
  | cons a front ih =>
    rw [cons_append, put, put]
    split
    · rfl
    split
    · rw [ih, cons_append]
    · rfl

theorem put_append_right (hfront : ∀ a ∈ front, a.1 < k) :
    put k v (front ++ back) = front ++ put k v back := by
  induction front with
  | nil => rfl
  | cons a front ih =>
    have ha : a.1 < k := hfront a mem_cons_self
    rw [cons_append, put, if_neg ha.asymm, if_pos ha,
      ih fun b hb => hfront b (mem_cons_of_mem _ hb), cons_append]

theorem length_put_le (k : κ) (v : ν) (l : List (κ × ν)) : (put k v l).length ≤ l.length + 1 := by
  induction l with
  | nil => exact Nat.le_refl _
  | cons a l ih =>
    rw [put]
    split
    · exact Nat.le_refl _
    split
    · exact Nat.succ_le_succ ih
    · exact Nat.le_succ _

theorem mem_put (h : Sorted l) : e ∈ put k v l ↔ e = (k, v) ∨ e ∈ l ∧ e.1 ≠ k := by
  induction l with
  | nil => simp [put]
  | cons a l ih =>
    obtain ⟨hhead, htail⟩ := pairwise_cons.mp h
    rw [put]
    split
    · rename_i hlt
      have hne : ∀ b ∈ a :: l, b.1 ≠ k := by
        rintro b hb rfl
        rcases mem_cons.mp hb with rfl | hb
        · exact hlt.false
        · exact (hlt.trans (hhead b hb)).false
      rw [mem_cons]
      exact or_congr_right ⟨fun hb => ⟨hb, hne e hb⟩, fun hb => hb.1⟩
    split
    · rename_i hlt
      rw [mem_cons, ih htail, mem_cons]
      constructor
      · rintro (rfl | heq | ⟨hmem, hne⟩)
        · exact .inr ⟨.inl rfl, hlt.ne⟩
        · exact .inl heq
        · exact .inr ⟨.inr hmem, hne⟩
      rintro (heq | ⟨rfl | hmem, hne⟩)
      · exact .inr (.inl heq)
      · exact .inl rfl
      · exact .inr (.inr ⟨hmem, hne⟩)
    rename_i hge hle
    obtain rfl : k = a.1 := le_antisymm (not_lt.mp hle) (not_lt.mp hge)
    rw [mem_cons, mem_cons]
    constructor
    · rintro (heq | hmem)
      · exact .inl heq
      · exact .inr ⟨.inr hmem, (hhead e hmem).ne'⟩
    rintro (heq | ⟨rfl | hmem, hne⟩)
    · exact .inl heq
    · exact absurd rfl hne
    · exact .inr hmem

theorem Sorted.put (h : Sorted l) (k : κ) (v : ν) : Sorted (put k v l) := by
  induction l with
  | nil => exact pairwise_singleton _ _
  | cons a l ih =>
    obtain ⟨hhead, htail⟩ := pairwise_cons.mp h
    rw [AvlMap.put]
    split
    · rename_i hlt
      exact pairwise_cons.mpr
        ⟨forall_mem_cons.mpr ⟨hlt, fun b hb => hlt.trans (hhead b hb)⟩, h⟩
    split
    · rename_i hlt
      refine pairwise_cons.mpr ⟨fun b hb => ?_, ih htail⟩
      rcases (mem_put htail).mp hb with rfl | ⟨hb, -⟩
      · exact hlt
      · exact hhead b hb
    · rename_i hge hle
      obtain rfl : k = a.1 := le_antisymm (not_lt.mp hle) (not_lt.mp hge)
      exact pairwise_cons.mpr ⟨hhead, htail⟩

theorem Sorted.erase (h : Sorted l) (k : κ) : Sorted (l.filter fun e => e.1 ≠ k) :=
  h.sublist filter_sublist

end Entries

namespace Tree
open List

variable {κ ν ε : Type}

def height : Tree κ ν → Nat
  | nil => 0
  | node _ _ _ _ height _ => height

def entries : Tree κ ν → Nat
  | nil => 0
  | node _ _ _ _ _ entries => entries

def isNil : Tree κ ν → Bool
  | nil => true
  | node .. => false

def toList : Tree κ ν → List (κ × ν)
  | nil => []
  | node key value left right _ _ => left.toList ++ (key, value) :: right.toList

@[simp] theorem height_nil : (nil : Tree κ ν).height = 0 := rfl

@[simp] theorem height_node (k : κ) (v : ν) (l r : Tree κ ν) (h e : Nat) :
    (node k v l r h e).height = h := rfl

@[simp] theorem entries_nil : (nil : Tree κ ν).entries = 0 := rfl

@[simp] theorem entries_node (k : κ) (v : ν) (l r : Tree κ ν) (h e : Nat) :
    (node k v l r h e).entries = e := rfl

def mk (key : κ) (value : ν) (left right : Tree κ ν) : Tree κ ν :=
  node key value left right (max left.height right.height + 1) (left.entries + right.entries + 1)

@[simp] theorem height_mk (k : κ) (v : ν) (l r : Tree κ ν) :
    (mk k v l r).height = max l.height r.height + 1 := rfl

@[simp] theorem entries_mk (k : κ) (v : ν) (l r : Tree κ ν) :
    (mk k v l r).entries = l.entries + r.entries + 1 := rfl

@[simp] theorem toList_mk (k : κ) (v : ν) (l r : Tree κ ν) :
    (mk k v l r).toList = l.toList ++ (k, v) :: r.toList := rfl

section
variable (C : Checks ε)

def make (key : κ) (value : ν) (left right : Tree κ ν) : Except ε (Tree κ ν) :=
  if ¬ max left.height right.height + 1 < C.heightBound then .error C.heightOverflows
  else if ¬ left.entries + right.entries < C.entryBound then .error C.sumOverflows
  else if ¬ left.entries + right.entries + 1 < C.entryBound then .error C.entriesOverflow
  else .ok (mk key value left right)

def rotateLeft : Tree κ ν → Except ε (Tree κ ν)
  | node key value left (node pivotKey pivotValue pivotLeft pivotRight _ _) _ _ => do
    let left ← make C key value left pivotLeft
    make C pivotKey pivotValue left pivotRight
  | _ => .error C.rotateLeft

def rotateRight : Tree κ ν → Except ε (Tree κ ν)
  | node key value (node pivotKey pivotValue pivotLeft pivotRight _ _) right _ _ => do
    let right ← make C key value pivotRight right
    make C pivotKey pivotValue pivotLeft right
  | _ => .error C.rotateRight

def balance : Tree κ ν → Except ε (Tree κ ν)
  | nil => .ok nil
  | node key value left right height entries =>
    if left.height > right.height + 1 then
      match left with
      | nil => .error C.leftHeavy
      | node _ _ leftLeft leftRight _ _ =>
        if leftLeft.height < leftRight.height then do
          let rotated ← rotateLeft C left
          let rebuilt ← make C key value rotated right
          rotateRight C rebuilt
        else rotateRight C (node key value left right height entries)
    else if right.height > left.height + 1 then
      match right with
      | nil => .error C.rightHeavy
      | node _ _ rightLeft rightRight _ _ =>
        if rightRight.height < rightLeft.height then do
          let rotated ← rotateRight C right
          let rebuilt ← make C key value left rotated
          rotateLeft C rebuilt
        else rotateLeft C (node key value left right height entries)
    else .ok (node key value left right height entries)

def least (key : κ) (value : ν) : Tree κ ν → κ × ν
  | nil => (key, value)
  | node key value left _ _ _ => least key value left

variable [LinearOrder κ]

def get (key : κ) : Tree κ ν → Option ν
  | nil => none
  | node existing value left right _ _ =>
    if key < existing then left.get key
    else if existing < key then right.get key
    else some value

def insert (key : κ) (value : ν) : Tree κ ν → Except ε (Tree κ ν)
  | nil => make C key value nil nil
  | node existing old left right _ _ =>
    if key < existing then do
      let left ← insert key value left
      let rebuilt ← make C existing old left right
      balance C rebuilt
    else if existing < key then do
      let right ← insert key value right
      let rebuilt ← make C existing old left right
      balance C rebuilt
    else make C key value left right

def remove (key : κ) : Tree κ ν → Except ε (Tree κ ν × Bool)
  | nil => .ok (nil, false)
  | node existing value left right height entries =>
    if key < existing then do
      let (shorter, removed) ← remove key left
      if !removed then return (node existing value left right height entries, false)
      let rebuilt ← make C existing value shorter right
      return (← balance C rebuilt, true)
    else if existing < key then do
      let (shorter, removed) ← remove key right
      if !removed then return (node existing value left right height entries, false)
      let rebuilt ← make C existing value left shorter
      return (← balance C rebuilt, true)
    else
      match left, right with
      | nil, nil => .ok (nil, true)
      | node .., nil => do return (← balance C left, true)
      | nil, node .. => do return (← balance C right, true)
      | node .., node rightKey rightValue rightLeft _ _ _ => do
        let successor := least rightKey rightValue rightLeft
        let (shorter, removed) ← remove successor.1 right
        if !removed then throw C.successor
        let rebuilt ← make C successor.1 successor.2 left shorter
        return (← balance C rebuilt, true)

def validateNode (left right : Tree κ ν) (height entries : Nat) : Except ε Unit :=
  if ¬ max left.height right.height + 1 < C.heightBound then .error C.heightOverflows
  else if ¬ left.entries + right.entries < C.entryBound then .error C.sumOverflows
  else if ¬ left.entries + right.entries + 1 < C.entryBound then .error C.entriesOverflow
  else if height ≠ max left.height right.height + 1 ∨ entries ≠ left.entries + right.entries + 1 ∨
      left.height > right.height + 1 ∨ right.height > left.height + 1 then .error C.node
  else .ok ()

/-- A node whose left child is being visited. -/
structure Frame (κ ν : Type) where
  key : κ
  value : ν
  right : Tree κ ν

def descend (capacity : Nat) : Tree κ ν → List (Frame κ ν) → Except ε (List (Frame κ ν))
  | nil, stack => .ok stack
  | node key value left right height entries, stack => do
    validateNode C left right height entries
    if ¬ stack.length < capacity then throw C.traversalHeight
    descend capacity left (⟨key, value, right⟩ :: stack)

def traverse (capacity : Nat) :
    Nat → Tree κ ν → List (Frame κ ν) → Option κ → List (κ × ν) → Except ε (List (κ × ν))
  | 0, _, _, _, visited => .ok visited
  | fuel + 1, current, stack, previous, visited =>
    if current.isNil && stack.isEmpty then .ok visited
    else
      match descend C capacity current stack with
      | .error error => .error error
      | .ok [] => .error C.underflow
      | .ok (frame :: stack) =>
        if ∀ key ∈ previous, key < frame.key then
          traverse capacity fuel frame.right stack (some frame.key)
            (visited ++ [(frame.key, frame.value)])
        else .error C.unordered

def size : Tree κ ν → Nat
  | nil => 0
  | node _ _ left right _ _ => left.size + right.size + 1

/-- `fault` is the failure, if any, to allocate the stack or the result. -/
def inOrder (fault : Option ε) (t : Tree κ ν) : Except ε (List (κ × ν)) :=
  match fault with
  | some error => .error error
  | none => do
    let visited ← traverse C t.height (t.size + 1) t [] none []
    if visited.length ≠ t.entries then throw C.entryCount
    return visited

end

def Wf : Tree κ ν → Prop
  | nil => True
  | node _ _ left right height entries => left.Wf ∧ right.Wf ∧
      height = max left.height right.height + 1 ∧ entries = left.entries + right.entries + 1 ∧
      left.height ≤ right.height + 1 ∧ right.height ≤ left.height + 1

section
variable {C : Checks ε} {k : κ} {v : ν} {l r t t' : Tree κ ν}

theorem wf_mk : (mk k v l r).Wf ↔
    l.Wf ∧ r.Wf ∧ l.height ≤ r.height + 1 ∧ r.height ≤ l.height + 1 := by
  simp [mk, Wf]

theorem Wf.entries_eq (h : t.Wf) : t.entries = t.toList.length := by
  induction t with
  | nil => rfl
  | node key value left right height entries ihLeft ihRight =>
    obtain ⟨hleft, hright, -, rfl, -, -⟩ := h
    rw [toList, length_append, length_cons, ← ihLeft hleft, ← ihRight hright, entries_node]
    omega

theorem Wf.pow_height_le (h : t.Wf) : 2 ^ (t.height / 2) ≤ t.entries + 1 := by
  induction t with
  | nil => simp
  | node key value left right height entries ihLeft ihRight =>
    obtain ⟨hleft, hright, rfl, rfl, hle, hge⟩ := h
    have hl := ihLeft hleft
    have hr := ihRight hright
    simp only [height_node, entries_node]
    rcases Nat.eq_zero_or_pos (max left.height right.height) with hzero | hpos
    · rw [hzero]
      simp
    -- both children are at least two lower than the node
    have hhalf : (max left.height right.height + 1) / 2 =
        (max left.height right.height - 1) / 2 + 1 := by omega
    have hleftPow : 2 ^ ((max left.height right.height - 1) / 2) ≤ 2 ^ (left.height / 2) :=
      Nat.pow_le_pow_right (by decide) (by omega)
    have hrightPow : 2 ^ ((max left.height right.height - 1) / 2) ≤ 2 ^ (right.height / 2) :=
      Nat.pow_le_pow_right (by decide) (by omega)
    rw [hhalf, Nat.pow_succ]
    omega

theorem Wf.height_add_two_lt (h : t.Wf) (hentries : t.entries < C.entryBound) :
    t.height + 2 < C.heightBound :=
  C.room _ (h.pow_height_le.trans hentries)

theorem make_ok : make C k v l r = .ok t ↔ max l.height r.height + 1 < C.heightBound ∧
    l.entries + r.entries + 1 < C.entryBound ∧ t = mk k v l r := by
  unfold make
  split
  · simp_all
  split
  · simp
    omega
  split
  · simp_all
  · simp_all [eq_comm]

theorem make_eq (hheight : max l.height r.height + 1 < C.heightBound)
    (hentries : l.entries + r.entries + 1 < C.entryBound) : make C k v l r = .ok (mk k v l r) :=
  make_ok.mpr ⟨hheight, hentries, rfl⟩

theorem make_error {error : ε} (hheight : max l.height r.height + 1 < C.heightBound)
    (h : make C k v l r = .error error) :
    (error = C.sumOverflows ∨ error = C.entriesOverflow) ∧
      C.entryBound ≤ l.entries + r.entries + 1 := by
  have hlarge : C.entryBound ≤ l.entries + r.entries + 1 := by
    by_contra hroom
    rw [make_eq hheight (Nat.not_le.mp hroom)] at h
    cases h
  unfold make at h
  rw [if_neg (not_not.mpr hheight)] at h
  split at h
  · exact ⟨.inl (Except.error.inj h).symm, hlarge⟩
  split at h
  · exact ⟨.inr (Except.error.inj h).symm, hlarge⟩
  · cases h

section
variable {pk : κ} {pv : ν} {pl pr : Tree κ ν} {h e h' e' : Nat}

theorem rotateRight_eq (hheight : (mk pk pv pl (mk k v pr r)).height < C.heightBound)
    (hentries : (mk pk pv pl (mk k v pr r)).entries < C.entryBound) :
    rotateRight C (node k v (node pk pv pl pr h e) r h' e') = .ok (mk pk pv pl (mk k v pr r)) := by
  simp only [height_mk, entries_mk] at hheight hentries
  exact except_bind_ok.mpr ⟨_, make_eq (by omega) (by omega), make_eq hheight hentries⟩

theorem rotateLeft_eq (hheight : (mk pk pv (mk k v l pl) pr).height < C.heightBound)
    (hentries : (mk pk pv (mk k v l pl) pr).entries < C.entryBound) :
    rotateLeft C (node k v l (node pk pv pl pr h e) h' e') = .ok (mk pk pv (mk k v l pl) pr) := by
  simp only [height_mk, entries_mk] at hheight hentries
  exact except_bind_ok.mpr ⟨_, make_eq (by omega) (by omega), make_eq hheight hentries⟩

end

/-- What a tree becomes when one of its children grew or shrank by one. -/
structure Rebalanced (k : κ) (v : ν) (l r t : Tree κ ν) : Prop where
  wf : t.Wf
  toList_eq : t.toList = l.toList ++ (k, v) :: r.toList
  entries_eq : t.entries = l.entries + r.entries + 1
  heights : max l.height r.height ≤ t.height ∧ t.height ≤ max l.height r.height + 1 ∧
    (l.height ≤ r.height + 1 → r.height ≤ l.height + 1 → t.height = max l.height r.height + 1)

section
variable (hl : l.Wf) (hr : r.Wf) (hle : l.height ≤ r.height + 2) (hge : r.height ≤ l.height + 2)
include hl hr hle hge

theorem exists_rebuilt (hheight : max l.height r.height + 1 < C.heightBound)
    (hentries : l.entries + r.entries + 1 < C.entryBound) (k : κ) (v : ν) :
    ∃ t, make C k v l r = .ok (mk k v l r) ∧ balance C (mk k v l r) = .ok t ∧
      Rebalanced k v l r t := by
  refine Exists.imp (fun _ => And.intro (make_eq hheight hentries)) ?_
  unfold mk balance
  dsimp only
  split
  · rename_i hheavy
    cases l with
    | nil => simp at hheavy
    | node lk lv ll lr lh le =>
      obtain ⟨hll, hlr, rfl, rfl, hll', hlr'⟩ := hl
      simp only [height_node, entries_node] at hle hge hheight hentries hheavy
      dsimp only
      split
      · rename_i hinner
        cases lr with
        | nil => simp at hinner
        | node pk pv pl pr ph pe =>
          obtain ⟨hpl, hpr, rfl, rfl, hpl', hpr'⟩ := hlr
          simp only [height_node, entries_node] at *
          refine ⟨mk pk pv (mk lk lv ll pl) (mk k v pr r), ?_, ?_, by simp [toList], ?_, ?_⟩
          · refine except_bind_ok.mpr ⟨_, rotateLeft_eq ?_ ?_, except_bind_ok.mpr
              ⟨_, make_eq ?_ ?_, rotateRight_eq ?_ ?_⟩⟩ <;> simp only [height_mk, entries_mk] <;> omega
          · simp only [wf_mk, height_mk]
            refine ⟨⟨hll, hpl, ?_, ?_⟩, ⟨hpr, hr, ?_, ?_⟩, ?_, ?_⟩ <;> omega
          all_goals
            simp only [height_mk, entries_mk, height_node, entries_node]
            omega
      refine ⟨mk lk lv ll (mk k v lr r), rotateRight_eq ?_ ?_, ?_, by simp [toList], ?_, ?_⟩
      case refine_3 =>
        simp only [wf_mk, height_mk]
        refine ⟨hll, ⟨hlr, hr, ?_, ?_⟩, ?_, ?_⟩ <;> omega
      all_goals
        simp only [height_mk, entries_mk, height_node, entries_node]
        omega
  split
  · rename_i hheavy
    cases r with
    | nil => simp at hheavy
    | node rk rv rl rr rh re =>
      obtain ⟨hrl, hrr, rfl, rfl, hrl', hrr'⟩ := hr
      simp only [height_node, entries_node] at hle hge hheight hentries hheavy
      dsimp only
      split
      · rename_i hinner
        cases rl with
        | nil => simp at hinner
        | node pk pv pl pr ph pe =>
          obtain ⟨hpl, hpr, rfl, rfl, hpl', hpr'⟩ := hrl
          simp only [height_node, entries_node] at *
          refine ⟨mk pk pv (mk k v l pl) (mk rk rv pr rr), ?_, ?_, by simp [toList], ?_, ?_⟩
          · refine except_bind_ok.mpr ⟨_, rotateRight_eq ?_ ?_, except_bind_ok.mpr
              ⟨_, make_eq ?_ ?_, rotateLeft_eq ?_ ?_⟩⟩ <;> simp only [height_mk, entries_mk] <;> omega
          · simp only [wf_mk, height_mk]
            refine ⟨⟨hl, hpl, ?_, ?_⟩, ⟨hpr, hrr, ?_, ?_⟩, ?_, ?_⟩ <;> omega
          all_goals
            simp only [height_mk, entries_mk, height_node, entries_node]
            omega
      refine ⟨mk rk rv (mk k v l rl) rr, rotateLeft_eq ?_ ?_, ?_, by simp [toList], ?_, ?_⟩
      case refine_3 =>
        simp only [wf_mk, height_mk]
        refine ⟨⟨hl, hrl, ?_, ?_⟩, hrr, ?_, ?_⟩ <;> omega
      all_goals
        simp only [height_mk, entries_mk, height_node, entries_node]
        omega
  · exact ⟨_, rfl, ⟨hl, hr, rfl, rfl, by omega, by omega⟩, rfl, rfl, Nat.le_succ _, le_rfl,
      fun _ _ => rfl⟩

theorem rebuild_ok (hok : (make C k v l r >>= balance C) = .ok t) :
    Rebalanced k v l r t ∧ t.entries < C.entryBound := by
  simp only [except_bind_ok, make_ok] at hok
  obtain ⟨_, ⟨hheight, hbound, rfl⟩, hbalance⟩ := hok
  obtain ⟨t', -, ht', h⟩ := exists_rebuilt hl hr hle hge hheight hbound k v
  obtain rfl := Except.ok.inj (ht'.symm.trans hbalance)
  exact ⟨h, h.entries_eq ▸ hbound⟩

theorem rebuild_error {error : ε} (hheight : max l.height r.height + 1 < C.heightBound)
    (h : (make C k v l r >>= balance C) = .error error) :
    (error = C.sumOverflows ∨ error = C.entriesOverflow) ∧
      C.entryBound ≤ l.entries + r.entries + 1 := by
  cases hmake : make C k v l r with
  | error error' =>
    rw [hmake] at h
    exact Except.error.inj h ▸ make_error hheight hmake
  | ok rebuilt =>
    obtain ⟨-, hbound, rfl⟩ := make_ok.mp hmake
    obtain ⟨t, -, ht, -⟩ := exists_rebuilt hl hr hle hge hheight hbound k v
    rw [hmake] at h
    exact absurd (ht.symm.trans h) (by simp)

end

theorem balance_of_wf (h : t.Wf) : balance C t = .ok t := by
  cases t with
  | nil => rfl
  | node k v l r height entries =>
    obtain ⟨-, -, -, -, hle, hge⟩ := h
    unfold balance
    dsimp only
    rw [if_neg (Nat.not_lt.mpr hle), if_neg (Nat.not_lt.mpr hge)]

theorem toList_least (h e : Nat) : ∃ rest, (node k v l r h e).toList = least k v l :: rest := by
  induction l generalizing k v r h e with
  | nil => exact ⟨_, rfl⟩
  | node lk lv ll lr lh le ih _ =>
    obtain ⟨rest, hrest⟩ := @ih lk lv lr lh le
    refine ⟨rest ++ (k, v) :: r.toList, ?_⟩
    rw [toList, hrest, least, cons_append]

theorem size_eq (t : Tree κ ν) : t.size = t.toList.length := by
  induction t with
  | nil => rfl
  | node key value left right height entries ihLeft ihRight =>
    rw [size, toList, length_append, length_cons, ihLeft, ihRight]
    omega

theorem validateNode_ok {h e : Nat} (hw : (node k v l r h e).Wf)
    (hentries : (node k v l r h e).entries < C.entryBound) : validateNode C l r h e = .ok () := by
  have hbound := hw.height_add_two_lt hentries
  obtain ⟨-, -, rfl, rfl, hle, hge⟩ := hw
  simp only [height_node, entries_node] at hbound hentries
  unfold validateNode
  rw [if_neg (by omega), if_neg (by omega), if_neg (by omega), if_neg (by omega)]

end

end Tree

end AvlMap
