import Chronoxide.Encoding.Gorilla

/-! The XOR layer of the ELF codec (`encoding/elf.rs`). Leading zeros are rounded to one of eight
values and the width of a window is stored modulo what its field can hold. -/

namespace Chronoxide
open Codec BitReader

def leadingRepresentation : List Nat := [
  0, 0, 0, 0, 0, 0, 0, 0, 1, 1, 1, 1, 2, 2, 2, 2, 3, 3, 4, 4, 5, 5, 6, 6, 7, 7, 7, 7, 7, 7, 7, 7,
  7, 7, 7, 7, 7, 7, 7, 7, 7, 7, 7, 7, 7, 7, 7, 7, 7, 7, 7, 7, 7, 7, 7, 7, 7, 7, 7, 7, 7, 7, 7, 7]

def leadingRound : List Nat := [
  0, 0, 0, 0, 0, 0, 0, 0, 8, 8, 8, 8, 12, 12, 12, 12, 16, 16, 18, 18, 20, 20, 22, 22, 24, 24, 24,
  24, 24, 24, 24, 24, 24, 24, 24, 24, 24, 24, 24, 24, 24, 24, 24, 24, 24, 24, 24, 24, 24, 24, 24,
  24, 24, 24, 24, 24, 24, 24, 24, 24, 24, 24, 24, 24]

def leadingDecode : List Nat := [0, 8, 12, 16, 18, 20, 22, 24]

structure ElfXorCompressor where
  writer : BitWriter
  storedVal : UInt64
  storedLeading : Nat
  storedTrailing : Nat
  first : Bool
  hasWindow : Bool

/-- The bits above the last one that is set, which itself is not written. -/
def BitWriter.writePayload (w : BitWriter) (value : UInt64) (trailing payloadBits : Nat) :
    BitWriter :=
  if payloadBits > 0 then w.writeBits (value >>> UInt64.ofNat (trailing + 1)) payloadBits else w

/-- A flag, the code of the leading zeros, and the width modulo what its field can hold. -/
def elfHeader (flag code widthBits centerBits : Nat) : Nat :=
  ((flag <<< 3 ||| code) <<< widthBits) ||| (centerBits &&& (2 ^ widthBits - 1))

namespace ElfXorCompressor

def new : ElfXorCompressor := ⟨.new, 0, 0, 0, true, false⟩

def addValue (self : ElfXorCompressor) (value : UInt64) : ElfXorCompressor :=
  if self.first then
    let trailing := trailingZeros value
    { self with
      first := false
      storedVal := value
      writer := (self.writer.writeBits (UInt64.ofNat trailing) 7).writePayload value trailing
        (63 - trailing) }
  else
    let xor := self.storedVal ^^^ value
    if xor = 0 then { self with writer := self.writer.writeBits 1 2 }
    else
      let leading := leadingRound.getD (leadingZeros xor) 0
      let trailing := trailingZeros xor
      if self.hasWindow ∧ leading = self.storedLeading ∧ trailing ≥ self.storedTrailing then
        { self with
          storedVal := value
          writer := (self.writer.writeBits 0 2).writeBits
            (xor >>> UInt64.ofNat self.storedTrailing)
            (64 - self.storedLeading - self.storedTrailing) }
      else
        let centerBits := 64 - leading - trailing
        let code := leadingRepresentation.getD leading 0
        let writer :=
          if centerBits ≤ 16 then
            self.writer.writeBits (UInt64.ofNat (elfHeader 2 code 4 centerBits)) 9
          else self.writer.writeBits (UInt64.ofNat (elfHeader 3 code 6 centerBits)) 11
        { storedVal := value
          storedLeading := leading
          storedTrailing := trailing
          first := false
          hasWindow := true
          writer := writer.writePayload xor trailing (centerBits - 1) }

end ElfXorCompressor

structure ElfXorDecompressor where
  storedVal : UInt64
  storedLeading : Nat
  storedTrailing : Nat
  first : Bool

namespace ElfXorDecompressor

def new : ElfXorDecompressor := ⟨0, 0, 0, true⟩

def readWindow (self : ElfXorDecompressor) (widthBits : Nat) : BitM ElfXorDecompressor := do
  let leadAndCenter := (← readBits (3 + widthBits)).toNat
  let leading := leadingDecode.getD (leadAndCenter >>> widthBits) 0
  let centerBits := leadAndCenter &&& (2 ^ widthBits - 1)
  let centerBits := if centerBits = 0 then 2 ^ widthBits else centerBits
  let trailing := 64 - (leading + centerBits)
  let payload ← readBits (centerBits - 1)
  let value := ((payload <<< 1) + 1) <<< UInt64.ofNat trailing
  return ⟨self.storedVal ^^^ value, leading, trailing, self.first⟩

def readValue (self : ElfXorDecompressor) : BitM ElfXorDecompressor := do
  if self.first then
    let trailing := (← readBits 7).toNat
    if trailing < 64 then
      let payload ← readBits (63 - trailing)
      return { self with
        first := false, storedVal := ((payload <<< 1) + 1) <<< UInt64.ofNat trailing }
    else return { self with first := false, storedVal := 0 }
  else
    match (← readBits 2).toNat with
    | 3 => self.readWindow 6
    | 2 => self.readWindow 4
    | 1 => return self
    | _ =>
      let payload ← readBits (64 - (self.storedLeading + self.storedTrailing))
      return { self with
        storedVal := self.storedVal ^^^ (payload <<< UInt64.ofNat self.storedTrailing) }

def readValues : Nat → ElfXorDecompressor → BitM (List UInt64)
  | 0, _ => return []
  | n + 1, self => do
    let self ← self.readValue
    let values ← readValues n self
    return self.storedVal :: values

end ElfXorDecompressor

theorem leading_codes {leading : Nat} (h : leading < 64) :
    leadingRound.getD leading 0 ≤ leading ∧
      leadingRepresentation.getD (leadingRound.getD leading 0) 0 < 8 ∧
      leadingDecode.getD (leadingRepresentation.getD (leadingRound.getD leading 0) 0) 0 =
        leadingRound.getD leading 0 := by
  revert leading
  decide

theorem elfHeader_fields : ∀ kind ∈ [(2, 4), (3, 6)], ∀ code < 8, ∀ centerBits < 65,
    let header := code * 2 ^ kind.2 + centerBits % 2 ^ kind.2
    header < 2 ^ (3 + kind.2) ∧ header >>> kind.2 = code ∧
      header &&& (2 ^ kind.2 - 1) = centerBits % 2 ^ kind.2 ∧
      bitsBE (5 + kind.2) (UInt64.ofNat (elfHeader kind.1 code kind.2 centerBits)).toNat =
        bitsBE 2 kind.1 ++ bitsBE (3 + kind.2) header := by
  decide +kernel

variable {x : UInt64}

theorem trailing_odd (hx : x ≠ 0) : x.toNat / 2 ^ trailingZeros x % 2 = 1 := by
  have hbound := leadingZeros_add_trailingZeros hx
  have hdvd := (le_trailingZeros_iff (x := x) (by omega)).mp le_rfl
  have hlast := (le_trailingZeros_iff (x := x) (k := trailingZeros x + 1) (by omega)).not.mp
    (Nat.not_succ_le_self _)
  rw [pow_succ, ← Nat.dvd_div_iff_mul_dvd hdvd] at hlast
  omega

theorem shift_payload_back (hx : x ≠ 0) :
    ((UInt64.ofNat (x.toNat / 2 ^ (trailingZeros x + 1)) <<< 1) + 1) <<<
      UInt64.ofNat (trailingZeros x) = x := by
  have hbound := leadingZeros_add_trailingZeros hx
  obtain ⟨-, hback⟩ := shift_window_back
    (show 0 < 64 - leadingZeros x - trailingZeros x by omega) (by omega)
    ((le_leadingZeros_iff hx (by omega)).mp le_rfl) ((le_trailingZeros_iff (by omega)).mp le_rfl)
  have hodd := trailing_odd hx
  have hlt : x.toNat / 2 ^ trailingZeros x < 2 ^ 64 :=
    (Nat.div_le_self _ _).trans_lt x.toNat_lt
  have hword : (UInt64.ofNat (x.toNat / 2 ^ (trailingZeros x + 1)) <<< 1) + 1 =
      UInt64.ofNat (x.toNat / 2 ^ trailingZeros x) := by
    rw [pow_succ, ← Nat.div_div_eq_div_mul]
    generalize x.toNat / 2 ^ trailingZeros x = m at hodd hlt
    rw [← UInt64.toNat_inj, UInt64.toNat_add, UInt64.toNat_shiftLeft,
      UInt64.toNat_ofNat_of_lt' (show m / 2 < 2 ^ 64 by omega), UInt64.toNat_ofNat_of_lt' hlt,
      Nat.shiftLeft_eq]
    change (m / 2 * 2 ^ 1 % 2 ^ 64 + 1) % 2 ^ 64 = m
    omega
  rw [hword, hback]

theorem payload_lt (hx : x ≠ 0) {leading payloadBits : Nat} (hle : leading ≤ leadingZeros x)
    (hsum : leading + trailingZeros x + payloadBits = 63) :
    x.toNat / 2 ^ (trailingZeros x + 1) < 2 ^ payloadBits := by
  have hlead := (le_leadingZeros_iff hx (by omega)).mp hle
  rw [Nat.div_lt_iff_lt_mul (Nat.two_pow_pos _), ← pow_add]
  rwa [show payloadBits + (trailingZeros x + 1) = 64 - leading by omega]

theorem toNat_shiftRight {n : Nat} (hn : n < 64) :
    (x >>> UInt64.ofNat n).toNat = x.toNat / 2 ^ n := by
  rw [UInt64.toNat_shiftRight, UInt64.toNat_ofNat_of_lt' (hn.trans (by decide)),
    Nat.mod_eq_of_lt hn, Nat.shiftRight_eq_div_pow]

theorem shiftRight_back {leading trailing sigBits : Nat} (hpos : 0 < sigBits)
    (hsum : leading + trailing + sigBits = 64) (hlead : x.toNat < 2 ^ (64 - leading))
    (htrail : 2 ^ trailing ∣ x.toNat) :
    (x >>> UInt64.ofNat trailing).toNat < 2 ^ sigBits ∧
      (x >>> UInt64.ofNat trailing) <<< UInt64.ofNat trailing = x := by
  obtain ⟨hlt, hback⟩ := shift_window_back hpos hsum hlead htrail
  rw [← toNat_shiftRight (by omega)] at hlt hback
  rw [UInt64.ofNat_toNat] at hback
  exact ⟨hlt, hback⟩

theorem writePayload_carries {w : BitWriter} {trailing payloadBits : Nat}
    (hbits : payloadBits ≤ 63 - trailing)
    (hlt : x.toNat / 2 ^ (trailing + 1) < 2 ^ payloadBits) :
    Carries w (w.writePayload x trailing payloadBits) (readBits payloadBits)
      (UInt64.ofNat (x.toNat / 2 ^ (trailing + 1))) := by
  unfold BitWriter.writePayload
  split
  · rw [← toNat_shiftRight (by omega)] at hlt ⊢
    rw [UInt64.ofNat_toNat]
    exact carries_bits (by omega) hlt
  · obtain rfl : payloadBits = 0 := by omega
    exact (reads_bits (by decide) hlt).carries

namespace ElfXorCompressor

variable (self : ElfXorCompressor)

def decompressor : ElfXorDecompressor :=
  ⟨self.storedVal, self.storedLeading, self.storedTrailing, self.first⟩

theorem addValue_storedVal (value : UInt64) : (self.addValue value).storedVal = value := by
  unfold addValue
  split
  · rfl
  dsimp only
  split
  · rename_i hxor
    exact UInt64.xor_eq_zero_iff.mp hxor
  · split <;> rfl

theorem newWindow_carries (w : BitWriter) (hx : x ≠ 0) {self : ElfXorDecompressor}
    {leading centerBits : Nat} (hleading : leading = leadingRound.getD (leadingZeros x) 0)
    (hcenter : centerBits = 64 - leading - trailingZeros x) {flag widthBits : Nat}
    (hkind : (flag, widthBits) ∈ [(2, 4), (3, 6)]) (hwidth : centerBits ≤ 2 ^ widthBits)
    {f : UInt64 → BitM ElfXorDecompressor} (hf : f (UInt64.ofNat flag) = self.readWindow widthBits) :
    Carries w ((w.writeBits (UInt64.ofNat (elfHeader flag (leadingRepresentation.getD leading 0)
        widthBits centerBits)) (5 + widthBits)).writePayload x (trailingZeros x) (centerBits - 1))
      (readBits 2 >>= f) ⟨self.storedVal ^^^ x, leading, trailingZeros x, self.first⟩ := by
  have hbound := leadingZeros_add_trailingZeros hx
  have hfits : flag < 2 ^ 2 ∧ widthBits ≤ 6 := by
    simp only [List.mem_cons, Prod.mk.injEq, List.not_mem_nil, or_false] at hkind
    omega
  obtain ⟨hle, hcode, hdecode⟩ := leading_codes (show leadingZeros x < 64 by omega)
  rw [← hleading] at hle hcode hdecode
  generalize leadingRepresentation.getD leading 0 = code at hcode hdecode ⊢
  obtain ⟨hheader, hshift, hmask, hbits⟩ :=
    elfHeader_fields _ hkind code hcode centerBits (by omega)
  have hwide : (if centerBits % 2 ^ widthBits = 0 then 2 ^ widthBits
      else centerBits % 2 ^ widthBits) = centerBits := by
    rcases Nat.lt_or_eq_of_le hwidth with hlt | heq
    · rw [Nat.mod_eq_of_lt hlt, if_neg (by omega)]
    · rw [heq, Nat.mod_self, if_pos rfl]
  intro bs hw
  -- the flag and the rest of the header are written as one word
  have hwrote := hw.bits (show 5 + widthBits ≤ 64 by omega)
    (UInt64.ofNat (elfHeader flag code widthBits centerBits))
  obtain ⟨bits, hpayload, hread⟩ := writePayload_carries (by omega)
    (payload_lt hx hle (show leading + trailingZeros x + (centerBits - 1) = 63 by omega)) _ hwrote
  rw [hbits, List.append_assoc, List.append_assoc] at hpayload
  refine ⟨_, hpayload, (reads_bits (by decide) hfits.1).seq ?_⟩
  rw [hf]
  refine (reads_bits (by omega) hheader).seq ?_
  rw [UInt64.toNat_ofNat_of_lt' (hheader.trans_le
    (Nat.pow_le_pow_right Nat.two_pos (show 3 + widthBits ≤ 64 by omega)))]
  simp only [hshift, hmask, hwide, hdecode]
  rw [show 64 - (leading + centerBits) = trailingZeros x by omega]
  refine hread.last ?_
  rw [shift_payload_back hx]
  exact Reads.ret _

theorem addValue_carries {self : ElfXorCompressor}
    (hwindow : self.storedLeading + self.storedTrailing < 64) (value : UInt64) :
    Carries self.writer (self.addValue value).writer self.decompressor.readValue
        (self.addValue value).decompressor ∧
      (self.addValue value).storedLeading + (self.addValue value).storedTrailing < 64 := by
  unfold addValue ElfXorDecompressor.readValue
  cases hfirst : self.first with
  | true =>
    have hle : trailingZeros value < 2 ^ 7 := by
      rcases eq_or_ne value 0 with rfl | hne
      · decide
      · have := leadingZeros_add_trailingZeros hne
        omega
    have hword : (UInt64.ofNat (trailingZeros value)).toNat = trailingZeros value :=
      UInt64.toNat_ofNat_of_lt' (hle.trans (by decide))
    simp only [decompressor, hfirst, if_true]
    refine ⟨(carries_bits (by decide) (by rwa [hword])).seq ?_, hwindow⟩
    rw [hword]
    rcases eq_or_ne value 0 with rfl | hne
    · exact .ret _
    have hbound := leadingZeros_add_trailingZeros hne
    rw [if_pos (by omega)]
    refine (writePayload_carries le_rfl (payload_lt hne (Nat.zero_le _) (by omega))).seq ?_
    rw [shift_payload_back hne]
    exact .ret _
  | false =>
    simp only [decompressor, hfirst, Bool.false_eq_true, if_false]
    split
    · exact ⟨(carries_bits (by decide) (by decide)).seq (.ret _), hwindow⟩
    rename_i hxor
    have hbound := leadingZeros_add_trailingZeros hxor
    obtain ⟨hround, hcode, -⟩ := leading_codes
      (show leadingZeros (self.storedVal ^^^ value) < 64 by omega)
    have hback : self.storedVal ^^^ (self.storedVal ^^^ value) = value :=
      GorillaState.xor_xor_self _ _
    split
    · rename_i hreuse
      obtain ⟨-, hleading, htrailing⟩ := hreuse
      obtain ⟨hlt, hshift⟩ := shiftRight_back
        (show 0 < 64 - self.storedLeading - self.storedTrailing by omega) (by omega)
        ((le_leadingZeros_iff hxor (by omega)).mp hround)
        ((le_trailingZeros_iff (by omega)).mp htrailing)
      refine ⟨(carries_bits (v := 0) (by decide) (by decide)).seq ?_, hwindow⟩
      rw [Nat.sub_sub] at hlt ⊢
      refine (carries_bits (by omega) hlt).seq ?_
      rw [hshift, hback]
      exact .ret _
    have hnew (flag widthBits : Nat) := @newWindow_carries _ self.writer hxor self.decompressor
      _ _ rfl rfl flag widthBits
    rw [show self.decompressor.storedVal ^^^ (self.storedVal ^^^ value) = value from hback,
      decompressor, hfirst] at hnew
    dsimp only
    split
    · exact ⟨hnew 2 4 (by decide) (by assumption) rfl, by omega⟩
    · exact ⟨hnew 3 6 (by decide) (by omega) rfl, by omega⟩

theorem addValues_carry (hwindow : self.storedLeading + self.storedTrailing < 64) (values : List UInt64) :
    Carries self.writer (values.foldl addValue self).writer
      (self.decompressor.readValues values.length) values := by
  induction values generalizing self with
  | nil => exact .ret []
  | cons value values ih =>
    obtain ⟨hread, hwindow'⟩ := addValue_carries hwindow value
    refine hread.seq ((ih _ hwindow').seq ?_)
    rw [decompressor, addValue_storedVal]
    exact .ret _

end ElfXorCompressor

theorem elfXor_lossless (values : List UInt64) :
    ∃ reader, ElfXorDecompressor.new.readValues values.length (BitReader.new
      (values.foldl ElfXorCompressor.addValue ElfXorCompressor.new).writer.finish) =
        .ok (values, reader) :=
  (ElfXorCompressor.addValues_carry .new (by decide) values).finish

end Chronoxide
