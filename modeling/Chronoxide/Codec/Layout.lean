import Mathlib.Algebra.GroupWithZero.Nat
import Mathlib.Data.List.Basic
import Mathlib.Tactic.Common

/-! Records of fixed fields, read at their offsets. A list is the concatenation of its fields exactly
when it has their total length and every field stands at the sum of the lengths before it. -/

namespace Codec
open List

variable {β : Type}

def fieldAt (bs : List β) (offset width : Nat) : List β := (bs.drop offset).take width

def getRange (bs : List β) (start stop : Nat) : Option (List β) :=
  if start ≤ stop ∧ stop ≤ bs.length then some (fieldAt bs start (stop - start)) else none

/-- The fields stand one after the other from an offset on. -/
def FieldsAt (bs : List β) : Nat → List (List β) → Prop
  | _, [] => True
  | offset, f :: fs => fieldAt bs offset f.length = f ∧ FieldsAt bs (offset + f.length) fs

def overwrite (bs : List β) (offset : Nat) (f : List β) : List β :=
  bs.take offset ++ f ++ bs.drop (offset + f.length)

/-- `chunks_exact`: the remainder is left out. -/
def chunksExact (width : Nat) (bs : List β) : List (List β) :=
  (range (bs.length / width)).map fun i => fieldAt bs (i * width) width

section
variable {bs xs ys : List β} {fs : List (List β)} {offset width : Nat}

theorem fieldAt_length (h : offset + width ≤ bs.length) : (fieldAt bs offset width).length = width := by
  rw [fieldAt, length_take, length_drop]
  omega

theorem fieldAt_append_left (h : offset + width ≤ xs.length) :
    fieldAt (xs ++ ys) offset width = fieldAt xs offset width := by
  rw [fieldAt, fieldAt, drop_append_of_le_length (by omega), take_append_of_le_length]
  rw [length_drop]
  omega

theorem fieldAt_append_right (h : xs.length ≤ offset) :
    fieldAt (xs ++ ys) offset width = fieldAt ys (offset - xs.length) width := by
  rw [fieldAt, fieldAt, drop_append, drop_eq_nil_of_le h, nil_append]

theorem fieldAt_left (h : width = xs.length) : fieldAt (xs ++ ys) 0 width = xs := by
  rw [fieldAt, drop_zero, h, take_left]

theorem getRange_eq_some {start stop : Nat} :
    getRange bs start stop = some xs ↔ start ≤ stop ∧ stop ≤ bs.length ∧
      fieldAt bs start (stop - start) = xs := by
  rw [getRange, Option.ite_none_right_eq_some, Option.some.injEq, and_assoc]

theorem fieldAt_middle (f : List β) (hoffset : offset = xs.length) (hwidth : width = f.length) :
    fieldAt (xs ++ (f ++ ys)) offset width = f := by
  rw [fieldAt_append_right (Nat.le_of_eq hoffset.symm), hoffset, Nat.sub_self, fieldAt_left hwidth]

theorem fieldAt_fieldAt {inner size : Nat} (h : inner + size ≤ width) :
    fieldAt (fieldAt bs offset width) inner size = fieldAt bs (offset + inner) size := by
  rw [fieldAt, fieldAt, fieldAt, drop_take, drop_drop, take_take,
    Nat.min_eq_left (by omega)]

theorem le_length_of_fieldAt (hwidth : 0 < width) (h : (fieldAt bs offset width).length = width) :
    offset + width ≤ bs.length := by
  rw [fieldAt, length_take, length_drop] at h
  omega

theorem fieldsAt_append (fs : List (List β)) (offset : Nat) :
    FieldsAt (xs ++ ys) (xs.length + offset) fs ↔ FieldsAt ys offset fs := by
  induction fs generalizing offset with
  | nil => exact Iff.rfl
  | cons f fs ih =>
    rw [FieldsAt, FieldsAt, fieldAt_append_right (Nat.le_add_right _ _), Nat.add_assoc, ih,
      Nat.add_sub_cancel_left]

theorem eq_flatten_of_fieldsAt (h : FieldsAt bs 0 fs)
    (hlength : bs.length = (fs.map length).sum) : bs = fs.flatten := by
  induction fs generalizing bs with
  | nil => exact length_eq_zero_iff.mp hlength
  | cons f fs ih =>
    obtain ⟨hfield, hfields⟩ := h
    rw [map_cons, sum_cons] at hlength
    have hsplit : bs = f ++ bs.drop f.length := by
      conv_lhs => rw [← take_append_drop f.length bs]
      rw [fieldAt, drop_zero] at hfield
      rw [hfield]
    have hrest : FieldsAt (bs.drop f.length) 0 fs := by
      rw [hsplit, Nat.zero_add, ← Nat.add_zero f.length, fieldsAt_append] at hfields
      exact hfields
    rw [flatten_cons, ← ih hrest (by rw [length_drop]; omega)]
    exact hsplit

theorem fieldsAt_flatten : FieldsAt fs.flatten 0 fs := by
  induction fs with
  | nil => trivial
  | cons f fs ih =>
    rw [flatten_cons]
    refine ⟨fieldAt_left rfl, ?_⟩
    rw [Nat.zero_add, ← Nat.add_zero f.length, fieldsAt_append]
    exact ih

theorem eq_flatten_iff (fs : List (List β)) :
    bs = fs.flatten ↔ bs.length = (fs.map length).sum ∧ FieldsAt bs 0 fs := by
  constructor
  · rintro rfl
    exact ⟨length_flatten, fieldsAt_flatten⟩
  · rintro ⟨hlength, hfields⟩
    exact eq_flatten_of_fieldsAt hfields hlength

theorem overwrite_append {f g : List β} (hoffset : offset = xs.length) (hlength : f.length = g.length) :
    overwrite (xs ++ (f ++ ys)) offset g = xs ++ (g ++ ys) := by
  rw [overwrite, hoffset, take_left, ← hlength, ← append_assoc xs f, ← length_append,
    drop_left, append_assoc]

theorem chunksExact_append (hwidth : 0 < width) {f : List β} (hf : f.length = width) :
    chunksExact width (f ++ bs) = f :: chunksExact width bs := by
  have hcount : (f ++ bs).length / width = bs.length / width + 1 := by
    rw [length_append, hf, Nat.add_div_left _ hwidth]
  rw [chunksExact, hcount, range_succ_eq_map, map_cons, map_map, Nat.zero_mul,
    fieldAt_left hf.symm, chunksExact]
  congr 1
  refine map_congr_left fun i _ => ?_
  rw [Function.comp, Nat.succ_mul, fieldAt_append_right (by omega), hf, Nat.add_sub_cancel]

theorem chunksExact_flatten (hwidth : 0 < width) (h : ∀ f ∈ fs, f.length = width) :
    chunksExact width fs.flatten = fs := by
  induction fs with
  | nil => simp [chunksExact]
  | cons f fs ih =>
    obtain ⟨hf, hfs⟩ := forall_mem_cons.mp h
    rw [flatten_cons, chunksExact_append hwidth hf, ih hfs]

theorem flatten_chunksExact (hwidth : 0 < width) {count : Nat} (h : bs.length = width * count) :
    (chunksExact width bs).flatten = bs ∧ (chunksExact width bs).length = count := by
  induction count generalizing bs with
  | zero =>
    obtain rfl := length_eq_zero_iff.mp h
    simp [chunksExact]
  | succ count ih =>
    rw [Nat.mul_succ] at h
    have hhead : (bs.take width).length = width := by
      rw [length_take]
      omega
    obtain ⟨hflat, hlength⟩ := @ih (bs.drop width) (by rw [length_drop]; omega)
    have hsplit := take_append_drop width bs
    have hchunks : chunksExact width (bs.take width ++ bs.drop width) =
        bs.take width :: chunksExact width (bs.drop width) := chunksExact_append hwidth hhead
    rw [hsplit] at hchunks
    rw [hchunks, flatten_cons, length_cons, hflat, hlength, hsplit]
    exact ⟨rfl, rfl⟩

end

end Codec
