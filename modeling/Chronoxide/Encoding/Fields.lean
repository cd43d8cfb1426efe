import Chronoxide.Codec.Layout
import Chronoxide.Encoding.Io

/-! Fields read at offsets of a record, and its checksum. -/

namespace Chronoxide
open Codec

variable (bytes : Bytes)

def readU8At (offset : Nat) : UInt8 := (fieldAt bytes offset 1).headD 0
def readU16At (offset : Nat) : UInt16 := u16FromLe (fieldAt bytes offset 2)
def readU32At (offset : Nat) : UInt32 := u32FromLe (fieldAt bytes offset 4)
def readU64At (offset : Nat) : UInt64 := u64FromLe (fieldAt bytes offset 8)

section
variable {bytes : Bytes} {offset : Nat}

theorem readU8At_eq_iff (h : offset + 1 ≤ bytes.length) (x : UInt8) :
    readU8At bytes offset = x ↔ fieldAt bytes offset 1 = [x] := by
  obtain ⟨b, hb⟩ := List.length_eq_one_iff.mp (fieldAt_length h)
  rw [readU8At, hb, List.headD_cons, List.singleton_inj]

theorem readU16At_eq_iff (h : offset + 2 ≤ bytes.length) (x : UInt16) :
    readU16At bytes offset = x ↔ fieldAt bytes offset 2 = u16ToLe x :=
  u16FromLe_eq_iff (fieldAt_length h) x

theorem readU32At_eq_iff (h : offset + 4 ≤ bytes.length) (x : UInt32) :
    readU32At bytes offset = x ↔ fieldAt bytes offset 4 = u32ToLe x :=
  u32FromLe_eq_iff (fieldAt_length h) x

theorem readU64At_eq_iff (h : offset + 8 ≤ bytes.length) (x : UInt64) :
    readU64At bytes offset = x ↔ fieldAt bytes offset 8 = u64ToLe x :=
  u64FromLe_eq_iff (fieldAt_length h) x

theorem readU16At_append_left {back : Bytes} (h : offset + 2 ≤ bytes.length) :
    readU16At (bytes ++ back) offset = readU16At bytes offset := by
  rw [readU16At, readU16At, fieldAt_append_left h]

theorem readU32At_append_left {back : Bytes} (h : offset + 4 ≤ bytes.length) :
    readU32At (bytes ++ back) offset = readU32At bytes offset := by
  rw [readU32At, readU32At, fieldAt_append_left h]

end

def okOr {α : Type} (x : Option α) (error : IoError) : Except IoError α := x.elim (.error error) .ok

theorem okOr_ok {α : Type} {x : Option α} {error : IoError} {a : α} :
    okOr x error = .ok a ↔ x = some a := by
  cases x <;> simp [okOr]

def requireExactLen (bytes : Bytes) (expected : Nat) (subject : String) : Except IoError Unit := do
  require (expected ≤ bytes.length) (unexpectedEof s!"{subject} is truncated")
  require (bytes.length ≤ expected) (invalidData s!"{subject} has trailing bytes")

theorem requireExactLen_ok {bytes : Bytes} {expected : Nat} {subject : String} {u : Unit} :
    requireExactLen bytes expected subject = .ok u ↔ bytes.length = expected := by
  unfold requireExactLen
  simp only [except_bind_ok, require_ok, exists_const]
  omega

/-- A checksum that can be continued behind what it was taken of. -/
structure Crc32c where
  crc32c : Bytes → UInt32
  append : UInt32 → Bytes → UInt32
  append_crc32c : ∀ front back, append (crc32c front) back = crc32c (front ++ back)

end Chronoxide
