import Mathlib.Data.List.Sort
import Mathlib.Order.Compare
import Mathlib.Tactic.Common

/-! Sets as strictly increasing lists: intersection, union and difference by one walk over both. -/

namespace SortedSet
open List

variable {α : Type} [LinearOrder α]

def intersectSorted : List α → List α → List α
  | [], _ => []
  | _ :: _, [] => []
  | a :: left, b :: right =>
    match compare a b with
    | .lt => intersectSorted left (b :: right)
    | .gt => intersectSorted (a :: left) right
    | .eq => a :: intersectSorted left right
termination_by left right => left.length + right.length

def unionSorted : List α → List α → List α
  | [], right => right
  | a :: left, [] => a :: left
  | a :: left, b :: right =>
    match compare a b with
    | .lt => a :: unionSorted left (b :: right)
    | .gt => b :: unionSorted (a :: left) right
    | .eq => a :: unionSorted left right
termination_by left right => left.length + right.length

def subtractSorted : List α → List α → List α
  | [], _ => []
  | a :: left, [] => a :: left
  | a :: left, b :: right =>
    match compare a b with
    | .lt => a :: subtractSorted left (b :: right)
    | .gt => subtractSorted (a :: left) right
    | .eq => subtractSorted left right
termination_by left right => left.length + right.length

def dedup : List α → List α
  | [] => []
  | [a] => [a]
  | a :: b :: l => if a = b then dedup (b :: l) else a :: dedup (b :: l)

abbrev Sorted (l : List α) : Prop := l.Pairwise (· < ·)

variable {left right : List α} {a b x : α}

theorem lt_of_lt_head (h : Sorted (b :: right)) (hlt : a < b) : ∀ x ∈ b :: right, a < x :=
  forall_mem_cons.mpr ⟨hlt, fun x hx => hlt.trans ((pairwise_cons.mp h).1 x hx)⟩

theorem notMem_of_lt_head (h : Sorted (b :: right)) (hlt : a < b) : a ∉ b :: right :=
  fun hmem => lt_irrefl a (lt_of_lt_head h hlt a hmem)

omit [LinearOrder α] in
theorem mem_cons_iff_of_notMem (h : b ∉ left) (hx : x ∈ left) : x ∈ b :: right ↔ x ∈ right :=
  mem_cons.trans (or_iff_right fun hxb => h (hxb ▸ hx))

theorem notMem_tail (h : Sorted (a :: left)) : a ∉ left :=
  fun ha => lt_irrefl a ((pairwise_cons.mp h).1 a ha)

theorem intersectSorted_eq_filter (hleft : Sorted left) (hright : Sorted right) :
    intersectSorted left right = left.filter (· ∈ right) := by
  fun_induction intersectSorted left right with
  | case1 => rfl
  | case2 a left => simp
  | case3 a left b right hcmp ih =>
    have hlt := compare_lt_iff_lt.mp hcmp
    rw [ih hleft.tail hright, filter_cons_of_neg]
    simpa using notMem_of_lt_head hright hlt
  | case4 a left b right hcmp ih =>
    have hb := notMem_of_lt_head hleft (compare_gt_iff_gt.mp hcmp)
    rw [ih hleft hright.tail]
    exact filter_congr fun x hx => by simp only [mem_cons_iff_of_notMem hb hx]
  | case5 a left b right hcmp ih =>
    obtain rfl := compare_eq_iff_eq.mp hcmp
    rw [ih hleft.tail hright.tail, filter_cons_of_pos (by simp)]
    congr 1
    exact filter_congr fun x hx => by simp only [mem_cons_iff_of_notMem (notMem_tail hleft) hx]

theorem subtractSorted_eq_filter (hleft : Sorted left) (hright : Sorted right) :
    subtractSorted left right = left.filter (· ∉ right) := by
  fun_induction subtractSorted left right with
  | case1 => rfl
  | case2 a left => simp
  | case3 a left b right hcmp ih =>
    have hlt := compare_lt_iff_lt.mp hcmp
    rw [ih hleft.tail hright, filter_cons_of_pos]
    simpa using notMem_of_lt_head hright hlt
  | case4 a left b right hcmp ih =>
    have hb := notMem_of_lt_head hleft (compare_gt_iff_gt.mp hcmp)
    rw [ih hleft hright.tail]
    exact filter_congr fun x hx => by simp only [mem_cons_iff_of_notMem hb hx]
  | case5 a left b right hcmp ih =>
    obtain rfl := compare_eq_iff_eq.mp hcmp
    rw [ih hleft.tail hright.tail, filter_cons_of_neg (by simp)]
    exact filter_congr fun x hx => by simp only [mem_cons_iff_of_notMem (notMem_tail hleft) hx]

theorem mem_unionSorted (left right : List α) (x : α) :
    x ∈ unionSorted left right ↔ x ∈ left ∨ x ∈ right := by
  fun_induction unionSorted left right with
  | case1 => simp
  | case2 => simp
  | case3 a left b right hcmp ih =>
    rw [mem_cons, ih, mem_cons, mem_cons]
    exact or_assoc.symm
  | case4 a left b right hcmp ih =>
    rw [mem_cons, ih, mem_cons, mem_cons]
    exact or_left_comm
  | case5 a left b right hcmp ih =>
    obtain rfl := compare_eq_iff_eq.mp hcmp
    rw [mem_cons, ih, mem_cons, mem_cons]
    tauto

theorem unionSorted_sorted (hleft : Sorted left) (hright : Sorted right) :
    Sorted (unionSorted left right) := by
  fun_induction unionSorted left right with
  | case1 => exact hright
  | case2 => exact hleft
  | case3 a left b right hcmp ih =>
    have hlt := compare_lt_iff_lt.mp hcmp
    refine pairwise_cons.mpr ⟨fun x hx => ?_, ih hleft.tail hright⟩
    rcases (mem_unionSorted ..).mp hx with hx | hx
    · exact (pairwise_cons.mp hleft).1 x hx
    · exact lt_of_lt_head hright hlt x hx
  | case4 a left b right hcmp ih =>
    have hlt := compare_gt_iff_gt.mp hcmp
    refine pairwise_cons.mpr ⟨fun x hx => ?_, ih hleft hright.tail⟩
    rcases (mem_unionSorted ..).mp hx with hx | hx
    · exact lt_of_lt_head hleft hlt x hx
    · exact (pairwise_cons.mp hright).1 x hx
  | case5 a left b right hcmp ih =>
    obtain rfl := compare_eq_iff_eq.mp hcmp
    refine pairwise_cons.mpr ⟨fun x hx => ?_, ih hleft.tail hright.tail⟩
    rcases (mem_unionSorted ..).mp hx with hx | hx
    · exact (pairwise_cons.mp hleft).1 x hx
    · exact (pairwise_cons.mp hright).1 x hx

/-- The sorted list of everything with the property. -/
structure Is (l : List α) (P : α → Prop) : Prop where
  sorted : Sorted l
  mem_iff : ∀ x, x ∈ l ↔ P x

namespace Is

variable {P Q : α → Prop}

theorem congr (h : Is left P) (hPQ : ∀ x, P x ↔ Q x) : Is left Q :=
  ⟨h.sorted, fun x => (h.mem_iff x).trans (hPQ x)⟩

theorem nil (h : ∀ x, ¬P x) : Is [] P :=
  ⟨List.Pairwise.nil, fun x => iff_of_false (not_mem_nil) (h x)⟩

theorem not_of_isEmpty (h : Is left P) (hempty : left.isEmpty) (x : α) : ¬P x := by
  rw [← h.mem_iff, isEmpty_iff.mp hempty]
  exact not_mem_nil

theorem intersect (hleft : Is left P) (hright : Is right Q) :
    Is (intersectSorted left right) fun x => P x ∧ Q x := by
  rw [intersectSorted_eq_filter hleft.sorted hright.sorted]
  refine ⟨hleft.sorted.filter _, fun x => ?_⟩
  rw [mem_filter, hleft.mem_iff, decide_eq_true_iff, hright.mem_iff]

theorem subtract (hleft : Is left P) (hright : Is right Q) :
    Is (subtractSorted left right) fun x => P x ∧ ¬Q x := by
  rw [subtractSorted_eq_filter hleft.sorted hright.sorted]
  refine ⟨hleft.sorted.filter _, fun x => ?_⟩
  rw [mem_filter, hleft.mem_iff, decide_eq_true_iff, hright.mem_iff]

theorem union (hleft : Is left P) (hright : Is right Q) :
    Is (unionSorted left right) fun x => P x ∨ Q x := by
  refine ⟨unionSorted_sorted hleft.sorted hright.sorted, fun x => ?_⟩
  rw [mem_unionSorted, hleft.mem_iff, hright.mem_iff]

theorem filter {keep : α → Bool} (h : Is left P) : Is (left.filter keep) fun x => P x ∧ keep x := by
  refine ⟨h.sorted.filter _, fun x => ?_⟩
  rw [mem_filter, h.mem_iff]

end Is

theorem exists_mem_concat {β : Type} {p : β → Prop} {l : List β} {y : β} :
    (∃ z ∈ l ++ [y], p z) ↔ (∃ z ∈ l, p z) ∨ p y := by
  simp [or_and_right, exists_or]

theorem takeWhile_dropWhile_eq_filter {β : Type} {R : β → β → Prop} {low P : β → Bool} {l : List β}
    (hl : l.Pairwise R) (hlow : ∀ x, low x → P x = false)
    (hup : ∀ x y, R x y → low x = false → low y = false)
    (hend : ∀ x y, R x y → low x = false → P x = false → P y = false) :
    (l.dropWhile low).takeWhile P = l.filter P := by
  -- Past the low elements the walk takes everything with `P`.
  have htake : ∀ l : List β, l.Pairwise R → (∀ x ∈ l, low x = false) →
      l.takeWhile P = l.filter P := by
    intro l
    induction l with
    | nil =>
      intro _ _
      rfl
    | cons x l ih =>
      intro hl hhigh
      obtain ⟨hx, hl⟩ := pairwise_cons.mp hl
      obtain ⟨hxlow, hhigh⟩ := forall_mem_cons.mp hhigh
      cases hP : P x with
      | true => rw [takeWhile_cons_of_pos hP, filter_cons_of_pos hP, ih hl hhigh]
      | false =>
        rw [takeWhile_cons_of_neg (by simp [hP]), filter_cons_of_neg (by simp [hP])]
        refine (filter_eq_nil_iff.mpr fun y hy => ?_).symm
        rw [hend x y (hx y hy) hxlow hP]
        exact Bool.false_ne_true
  induction l with
  | nil => rfl
  | cons x l ih =>
    obtain ⟨hx, htail⟩ := pairwise_cons.mp hl
    cases hxlow : low x with
    | true =>
      rw [dropWhile_cons_of_pos hxlow, filter_cons_of_neg (by simp [hlow x hxlow]),
        ih htail]
    | false =>
      rw [dropWhile_cons_of_neg (by simp [hxlow])]
      exact htake _ hl (forall_mem_cons.mpr ⟨hxlow, fun y hy => hup x y (hx y hy) hxlow⟩)

theorem mem_dedup (l : List α) (x : α) : x ∈ dedup l ↔ x ∈ l := by
  fun_induction dedup l with
  | case1 => rfl
  | case2 => rfl
  | case3 a l ih =>
    rw [ih]
    simp
  | case4 a b l hne ih => rw [mem_cons, ih, mem_cons (a := x) (b := a)]

theorem dedup_sorted {l : List α} (h : l.Pairwise (· ≤ ·)) : Sorted (dedup l) := by
  fun_induction dedup l with
  | case1 => exact List.Pairwise.nil
  | case2 a => exact pairwise_singleton _ a
  | case3 a l ih => exact ih h.tail
  | case4 a b l hne ih =>
    refine pairwise_cons.mpr ⟨fun x hx => ?_, ih h.tail⟩
    have hab : a < b := lt_of_le_of_ne ((pairwise_cons.mp h).1 b (mem_cons_self ..)) hne
    rcases mem_cons.mp ((mem_dedup ..).mp hx) with rfl | hx
    · exact hab
    · exact hab.trans_le ((pairwise_cons.mp h.tail).1 x hx)

theorem sorted_dedup_mergeSort (l : List α) : Sorted (dedup (l.mergeSort (· ≤ ·))) :=
  dedup_sorted (pairwise_mergeSort' _ l)

theorem mem_dedup_mergeSort (l : List α) (x : α) : x ∈ dedup (l.mergeSort (· ≤ ·)) ↔ x ∈ l := by
  rw [mem_dedup, mem_mergeSort]

end SortedSet
