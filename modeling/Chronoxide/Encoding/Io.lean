import Chronoxide.Codec.Bits
import Chronoxide.Codec.Parser

/-! Errors of the storage layer and the fixed-width fields every on-disk structure is made of.
A buffer with its cursor is the list of the bytes after the cursor. -/

namespace Chronoxide
open Codec

inductive ErrorKind
  | unexpectedEof
  | invalidData
  | invalidInput
  | notFound
  | wouldBlock
  | outOfMemory
  | quotaExceeded
  | unsupported
  | other
  deriving DecidableEq, Repr

structure IoError where
  kind : ErrorKind
  message : String
  deriving DecidableEq, Repr

abbrev Bytes := List UInt8

def isizeMax : Nat := 2 ^ 63 - 1

abbrev Reader (α : Type) := Parser IoError UInt8 α

variable (message : String)

def unexpectedEof : IoError := ⟨.unexpectedEof, message⟩
def invalidData : IoError := ⟨.invalidData, message⟩
def invalidInput : IoError := ⟨.invalidInput, message⟩

structure F64 where
  bits : UInt64
  deriving DecidableEq, Repr

def u16ToLe (x : UInt16) : Bytes := leBytes 2 x.toNat
def u32ToLe (x : UInt32) : Bytes := leBytes 4 x.toNat
def u64ToLe (x : UInt64) : Bytes := leBytes 8 x.toNat
def i64ToLe (x : Int64) : Bytes := u64ToLe x.toUInt64

variable (bs : Bytes)

def u16FromLe : UInt16 := UInt16.ofNat (leNat bs)
def u32FromLe : UInt32 := UInt32.ofNat (leNat bs)
def u64FromLe : UInt64 := UInt64.ofNat (leNat bs)
def i64FromLe : Int64 := (u64FromLe bs).toInt64

@[simp] theorem u16ToLe_length (x : UInt16) : (u16ToLe x).length = 2 := leBytes_length ..
@[simp] theorem u32ToLe_length (x : UInt32) : (u32ToLe x).length = 4 := leBytes_length ..
@[simp] theorem u64ToLe_length (x : UInt64) : (u64ToLe x).length = 8 := leBytes_length ..
@[simp] theorem i64ToLe_length (x : Int64) : (i64ToLe x).length = 8 := leBytes_length ..

theorem u16FromLe_eq_iff {bs : Bytes} (h : bs.length = 2) (x : UInt16) :
    u16FromLe bs = x ↔ bs = u16ToLe x := by
  have hlt : leNat bs < UInt16.size := by simpa [h] using leNat_lt bs
  rw [u16ToLe, ← leNat_eq_iff h (by simpa using x.toNat_lt), u16FromLe, ← UInt16.toNat_inj,
    UInt16.toNat_ofNat_of_lt' hlt]

theorem u32FromLe_eq_iff {bs : Bytes} (h : bs.length = 4) (x : UInt32) :
    u32FromLe bs = x ↔ bs = u32ToLe x := by
  have hlt : leNat bs < UInt32.size := by simpa [h] using leNat_lt bs
  rw [u32ToLe, ← leNat_eq_iff h (by simpa using x.toNat_lt), u32FromLe, ← UInt32.toNat_inj,
    UInt32.toNat_ofNat_of_lt' hlt]

theorem u64FromLe_eq_iff {bs : Bytes} (h : bs.length = 8) (x : UInt64) :
    u64FromLe bs = x ↔ bs = u64ToLe x := by
  have hlt : leNat bs < UInt64.size := by simpa [h] using leNat_lt bs
  rw [u64ToLe, ← leNat_eq_iff h (by simpa using x.toNat_lt), u64FromLe, ← UInt64.toNat_inj,
    UInt64.toNat_ofNat_of_lt' hlt]

theorem i64FromLe_eq_iff {bs : Bytes} (h : bs.length = 8) (x : Int64) :
    i64FromLe bs = x ↔ bs = i64ToLe x := by
  rw [i64ToLe, ← u64FromLe_eq_iff h, i64FromLe]
  constructor
  · rintro rfl
    exact (UInt64.toUInt64_toInt64 _).symm
  · intro hx
    rw [hx]
    exact Int64.toInt64_toUInt64 x

theorem takeN_map_codes {α : Type} {n : Nat} {e : IoError} {dec : Bytes → α} {enc : α → Bytes}
    (hlen : ∀ a, (enc a).length = n) (hinv : ∀ bs a, bs.length = n → (dec bs = a ↔ bs = enc a)) :
    Parser.Codes (do return dec (← Parser.takeN n e) : Reader α) (fun _ => True) enc := by
  intro bs a rest
  simp only [Parser.bind_ok, Parser.takeN_ok, Parser.pure_ok, true_and]
  constructor
  · rintro ⟨xs, mid, ⟨hn, rfl⟩, ha, rfl⟩
    rw [(hinv xs a hn).mp ha]
  · rintro rfl
    exact ⟨enc a, rest, ⟨hlen a, rfl⟩, (hinv _ a (hlen a)).mpr rfl, rfl⟩

def takeU16 (e : IoError) : Reader UInt16 := do return u16FromLe (← Parser.takeN 2 e)
def takeU32 (e : IoError) : Reader UInt32 := do return u32FromLe (← Parser.takeN 4 e)
def takeU64 (e : IoError) : Reader UInt64 := do return u64FromLe (← Parser.takeN 8 e)

section Fields
variable {e : IoError} {bs rest : Bytes}

theorem takeU16_ok {x : UInt16} : takeU16 e bs = .ok (x, rest) ↔ bs = u16ToLe x ++ rest := by
  rw [takeU16, takeN_map_codes u16ToLe_length (fun _ a h => u16FromLe_eq_iff h a), true_and]

theorem takeU32_ok {x : UInt32} : takeU32 e bs = .ok (x, rest) ↔ bs = u32ToLe x ++ rest := by
  rw [takeU32, takeN_map_codes u32ToLe_length (fun _ a h => u32FromLe_eq_iff h a), true_and]

theorem takeU64_ok {x : UInt64} : takeU64 e bs = .ok (x, rest) ↔ bs = u64ToLe x ++ rest := by
  rw [takeU64, takeN_map_codes u64ToLe_length (fun _ a h => u64FromLe_eq_iff h a), true_and]

end Fields

end Chronoxide
