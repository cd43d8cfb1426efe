import Chronoxide.Encoding.Io

/-! Variable-length integers (`encoding/varint.rs`) and the zigzag map (`encoding/zigzag.rs`).
The decoder rejects padded forms, so every value has one encoding. -/

namespace Chronoxide
open Codec

-- `while value >= 0x80`: a 64-bit value leaves the loop within ten rounds.
def encodeVarintLoop : Nat → UInt64 → Bytes
  | 0, value => [value.toUInt8]
  | n + 1, value =>
    if value ≥ 0x80 then (value.toUInt8 ||| 0x80) :: encodeVarintLoop n (value >>> 7)
    else [value.toUInt8]

def encodeVarint (value : UInt64) : Bytes := encodeVarintLoop 10 value

def varintLenLoop : Nat → UInt64 → Nat
  | 0, _ => 1
  | n + 1, value => if value ≥ 0x80 then varintLenLoop n (value >>> 7) + 1 else 1

def varintLen (value : UInt64) : Nat := varintLenLoop 10 value

-- `for byte_index in 0..10`, with the number of rounds still to come.
def decodeVarintLoop : Nat → Nat → UInt64 → Reader UInt64
  | 0, _, _ => Parser.fail (invalidData "varint exceeds u64")
  | left + 1, byteIndex, value => do
    let byte ← Parser.next (unexpectedEof "varint is truncated")
    Parser.ensure (¬(byteIndex = 9 ∧ byte &&& 0xfe ≠ 0)) (invalidData "varint exceeds u64")
    let value := value ||| ((byte &&& 0x7f).toUInt64 <<< UInt64.ofNat (byteIndex * 7))
    if byte &&& 0x80 = 0 then
      Parser.ensure (byteIndex + 1 = varintLen value) (invalidData "varint is not canonical")
      return value
    else decodeVarintLoop left (byteIndex + 1) value

def decodeVarint : Reader UInt64 := decodeVarintLoop 10 0 0

variable {v : UInt64}

section Width

theorem toNat_shiftRight_seven (v : UInt64) : (v >>> 7).toNat = v.toNat / 128 := by
  rw [UInt64.toNat_shiftRight, Nat.shiftRight_eq_div_pow]
  rfl

theorem ge_0x80_iff (v : UInt64) : v ≥ 0x80 ↔ 128 ≤ v.toNat := UInt64.le_iff_toNat_le

theorem encodeVarintLoop_succ {n : Nat} (h : v.toNat < 128 ^ n) :
    encodeVarintLoop (n + 1) v = encodeVarintLoop n v := by
  induction n generalizing v with
  | zero =>
    have : ¬ v ≥ 0x80 := by rw [ge_0x80_iff]; omega
    simp [encodeVarintLoop, this]
  | succ n ih =>
    rw [encodeVarintLoop]
    conv_rhs => rw [encodeVarintLoop]
    rw [ih (by rw [toNat_shiftRight_seven]; rw [pow_succ] at h; omega)]

variable (v)

theorem toNat_lt_128_pow_nine : (v >>> 7).toNat < 128 ^ 9 := by
  have := v.toNat_lt
  rw [toNat_shiftRight_seven]
  omega

theorem encodeVarint_unfold : encodeVarint v =
    if v ≥ 0x80 then (v.toUInt8 ||| 0x80) :: encodeVarint (v >>> 7) else [v.toUInt8] := by
  rw [encodeVarint, encodeVarintLoop, encodeVarint, encodeVarintLoop_succ (toNat_lt_128_pow_nine v)]

theorem encodeVarint_length : (encodeVarint v).length = varintLen v := by
  suffices h : ∀ n v, (encodeVarintLoop n v).length = varintLenLoop n v from h 10 v
  intro n
  induction n with
  | zero => intro v; rfl
  | succ n ih =>
    intro v
    rw [encodeVarintLoop, varintLenLoop]
    split
    · rw [List.length_cons, ih]
    · rfl

theorem varintLen_unfold : varintLen v = if v ≥ 0x80 then varintLen (v >>> 7) + 1 else 1 := by
  rw [← encodeVarint_length, ← encodeVarint_length, encodeVarint_unfold]
  split <;> rfl

theorem varintLen_pos : 0 < varintLen v := by
  rw [varintLen_unfold]
  split <;> omega

variable {v}

theorem varintLen_le {n : Nat} (h : v.toNat < 128 ^ (n + 1)) : varintLen v ≤ n + 1 := by
  induction n generalizing v with
  | zero =>
    have : ¬ v ≥ 0x80 := by rw [ge_0x80_iff]; omega
    rw [varintLen_unfold, if_neg this]
  | succ n ih =>
    have hshift : (v >>> 7).toNat < 128 ^ (n + 1) := by
      rw [toNat_shiftRight_seven]; rw [pow_succ] at h; omega
    rw [varintLen_unfold]
    split
    · exact Nat.succ_le_succ (ih hshift)
    · omega

theorem lt_varintLen {n : Nat} (h : 128 ^ n ≤ v.toNat) : n < varintLen v := by
  induction n generalizing v with
  | zero => exact varintLen_pos v
  | succ n ih =>
    have hpos : 1 ≤ 128 ^ n := Nat.one_le_pow _ _ (by decide)
    have hge : v ≥ 0x80 := by rw [ge_0x80_iff]; rw [pow_succ] at h; omega
    have hshift : 128 ^ n ≤ (v >>> 7).toNat := by
      rw [toNat_shiftRight_seven]; rw [pow_succ] at h; omega
    rw [varintLen_unfold, if_pos hge]
    exact Nat.succ_lt_succ (ih hshift)

end Width

section Byte

variable (b : UInt8)

theorem and_0xfe_ne_zero_iff : b &&& 0xfe ≠ 0 ↔ 2 ≤ b.toNat := by
  have h : ∀ n < 256, n &&& 0xfe ≠ 0 ↔ 2 ≤ n := by decide +kernel
  rw [← h _ b.toNat_lt, ne_eq, ne_eq, ← UInt8.toNat_inj]
  simp

theorem toNat_and_0x7f : (b &&& 0x7f).toNat = b.toNat % 128 := by
  exact Nat.and_two_pow_sub_one_eq_mod b.toNat 7

theorem and_0x80_eq_zero_iff : b &&& 0x80 = 0 ↔ b.toNat < 128 := by
  have h : ∀ n < 256, n &&& 0x80 = 0 ↔ n < 128 := by decide +kernel
  rw [← h _ b.toNat_lt, ← UInt8.toNat_inj]
  simp

theorem toNat_or_0x80 : (b ||| 0x80).toNat = b.toNat % 128 + 128 := by
  have h : ∀ n < 256, n ||| 0x80 = n % 128 + 128 := by decide +kernel
  exact h _ b.toNat_lt

theorem toNat_or_shift {acc : UInt64} {b : UInt8} {i : Nat} (hi : i ≤ 9)
    (hacc : acc.toNat < 128 ^ i) (hb : i = 9 → b.toNat < 2) :
    (acc ||| ((b &&& 0x7f).toUInt64 <<< UInt64.ofNat (i * 7))).toNat =
      acc.toNat + 128 ^ i * (b.toNat % 128) := by
  have hpow : (128 : Nat) ^ i = 2 ^ (i * 7) := by rw [mul_comm, pow_mul]; norm_num
  have hshift : (UInt64.ofNat (i * 7)).toNat % 64 = i * 7 := by
    rw [UInt64.toNat_ofNat_of_lt' (by simp [UInt64.size]; omega), Nat.mod_eq_of_lt (by omega)]
  have hfit : 2 ^ (i * 7) * (b.toNat % 128) < 2 ^ 64 := by
    have hmod : b.toNat % 128 < 128 := Nat.mod_lt _ (by decide)
    rcases Nat.lt_or_ge i 9 with h | h
    · calc 2 ^ (i * 7) * (b.toNat % 128) ≤ 2 ^ 56 * (b.toNat % 128) :=
            Nat.mul_le_mul_right _ (Nat.pow_le_pow_right (by decide) (by omega))
        _ < 2 ^ 64 := by omega
    · obtain rfl : i = 9 := by omega
      have := hb rfl
      omega
  rw [UInt64.toNat_or, UInt64.toNat_shiftLeft, hshift, UInt8.toNat_toUInt64, toNat_and_0x7f,
    Nat.shiftLeft_eq, mul_comm (b.toNat % 128), Nat.mod_eq_of_lt hfit, Nat.or_comm,
    ← Nat.two_pow_add_eq_or_of_lt (by rwa [← hpow]), hpow, Nat.add_comm]

end Byte

theorem cons_eq_encodeVarint {w : UInt64} {b : UInt8} {bs rest : Bytes} :
    b :: bs = encodeVarint w ++ rest ↔
      (b.toNat < 128 ∧ w.toNat = b.toNat ∧ bs = rest) ∨ ∃ w' : UInt64, 128 ≤ b.toNat ∧
        0 < w'.toNat ∧ w.toNat = b.toNat % 128 + 128 * w'.toNat ∧ bs = encodeVarint w' ++ rest := by
  have hbyte : b.toNat < 256 := b.toNat_lt
  rw [encodeVarint_unfold]
  split
  · rename_i hge
    rw [ge_0x80_iff] at hge
    rw [List.cons_append, List.cons.injEq, ← UInt8.toNat_inj, toNat_or_0x80, UInt64.toNat_toUInt8]
    constructor
    · rintro ⟨hhead, rfl⟩
      refine .inr ⟨w >>> 7, by omega, ?_, ?_, rfl⟩
      · rw [toNat_shiftRight_seven]
        omega
      · rw [toNat_shiftRight_seven]
        omega
    rintro (⟨hb, hw, -⟩ | ⟨w', hb, hpos, hw, rfl⟩)
    · omega
    have hshift : w >>> 7 = w' := by
      rw [← UInt64.toNat_inj, toNat_shiftRight_seven]
      omega
    exact ⟨by omega, by rw [hshift]⟩
  rename_i hlt
  rw [ge_0x80_iff] at hlt
  rw [List.singleton_append, List.cons.injEq, ← UInt8.toNat_inj, UInt64.toNat_toUInt8]
  constructor
  · rintro ⟨hhead, rfl⟩
    exact .inl ⟨by omega, by omega, rfl⟩
  · rintro (⟨hb, hw, rfl⟩ | ⟨w', hb, hpos, hw, -⟩)
    · exact ⟨by omega, rfl⟩
    · omega

/-- From round `i` on, the loop reads the encoding of what is left of the value, which is
non-zero unless nothing has been read yet. -/
theorem decodeVarintLoop_ok {left i : Nat} (hi : i + left = 10) {acc v : UInt64}
    (hacc : acc.toNat < 128 ^ i) {bs rest : Bytes} :
    decodeVarintLoop left i acc bs = .ok (v, rest) ↔
      ∃ w : UInt64, v.toNat = acc.toNat + 128 ^ i * w.toNat ∧ (i = 0 ∨ 0 < w.toNat) ∧
        bs = encodeVarint w ++ rest := by
  have hv := v.toNat_lt
  induction left generalizing i acc bs with
  | zero =>
    obtain rfl : i = 10 := by omega
    simp only [decodeVarintLoop, Parser.fail_ok, false_iff]
    rintro ⟨w, hsum, hw, -⟩
    omega
  | succ left ih =>
    rcases bs with _ | ⟨b, bs⟩
    · refine iff_of_false (by simp [decodeVarintLoop]) ?_
      rintro ⟨w, -, -, hnil⟩
      have hlen := congrArg List.length hnil
      rw [List.length_append, encodeVarint_length, List.length_nil] at hlen
      have := varintLen_pos w
      omega
    have hmod : b.toNat % 128 < 128 := Nat.mod_lt _ (by decide)
    have hpos : 0 < 128 ^ i := Nat.pow_pos (by decide)
    have hcap := Nat.mul_le_mul_left (128 ^ i) (show b.toNat % 128 ≤ 127 by omega)
    simp only [decodeVarintLoop, Parser.next_cons_bind, Parser.bind_ok, Parser.ensure_ok,
      Parser.exists_ensure, and_0xfe_ne_zero_iff, and_0x80_eq_zero_iff, cons_eq_encodeVarint]
    by_cases hlast : i = 9 ∧ 2 ≤ b.toNat
    · -- the tenth byte has one bit of the value
      refine iff_of_false (fun h => h.1 hlast) ?_
      obtain ⟨rfl, hb⟩ := hlast
      rintro ⟨w, hsum, -, ⟨-, hw, -⟩ | ⟨w', -, hpos', hw, -⟩⟩ <;> omega
    have hval := toNat_or_shift (b := b) (show i ≤ 9 by omega) hacc (by omega)
    generalize acc ||| ((b &&& 0x7f).toUInt64 <<< UInt64.ofNat (i * 7)) = next at hval ⊢
    have hnext : next.toNat < 128 ^ (i + 1) := by
      omega
    rw [and_iff_right hlast]
    by_cases hb : b.toNat < 128
    · -- the last byte: a zero group here would make the encoding one byte too long
      rw [Nat.mod_eq_of_lt hb] at hval
      have hlen : i + 1 = varintLen next ↔ i = 0 ∨ 0 < b.toNat := by
        have hle := varintLen_le hnext
        constructor
        · intro hlen
          by_contra hzero
          obtain ⟨j, rfl⟩ : ∃ j, i = j + 1 := ⟨i - 1, by omega⟩
          have := varintLen_le (v := next) (n := j)
            (by rw [hval, show b.toNat = 0 by omega]; simpa using hacc)
          omega
        · rintro (rfl | hb')
          · exact le_antisymm (varintLen_pos next) hle
          · have := Nat.mul_le_mul_left (128 ^ i) hb'
            exact le_antisymm (lt_varintLen (by omega)) hle
      simp only [if_pos hb, Parser.bind_ok, Parser.ensure_ok, Parser.exists_ensure, Parser.pure_ok,
        hlen]
      constructor
      · rintro ⟨hshort, rfl, rfl⟩
        exact ⟨b.toUInt64, by simpa using hval, by simpa using hshort, .inl ⟨hb, by simp, rfl⟩⟩
      rintro ⟨w, hsum, hshort, ⟨-, hw, rfl⟩ | ⟨w', hge, -⟩⟩
      · rw [hw] at hsum hshort
        exact ⟨hshort, UInt64.toNat_inj.mp (hval.trans hsum.symm), rfl⟩
      · omega
    rw [if_neg hb]
    refine (ih (by omega) hnext).trans ?_
    constructor
    · rintro ⟨w', hsum, hw', rfl⟩
      have hsum : v.toNat = acc.toNat + 128 ^ i * (b.toNat % 128 + 128 * w'.toNat) := by
        rw [hsum, hval, pow_succ]
        ring
      have hfit : b.toNat % 128 + 128 * w'.toNat < UInt64.size := by
        have hle := Nat.le_mul_of_pos_left (b.toNat % 128 + 128 * w'.toNat) hpos
        exact lt_of_le_of_lt (by omega) v.toNat_lt
      have hword := UInt64.toNat_ofNat_of_lt' hfit
      exact ⟨_, by rw [hword, hsum], by omega, .inr ⟨w', by omega, by omega, hword, rfl⟩⟩
    · rintro ⟨w, hsum, -, ⟨hlt, -⟩ | ⟨w', -, hw', hw, rfl⟩⟩
      · exact absurd hlt hb
      · refine ⟨w', ?_, .inr hw', rfl⟩
        rw [hsum, hw, hval, pow_succ]
        ring

theorem decodeVarint_codes : Parser.Codes decodeVarint (fun _ => True) encodeVarint := by
  intro bs v rest
  rw [decodeVarint, decodeVarintLoop_ok (by rfl) (by decide)]
  simp [UInt64.toNat_inj]

theorem decodeVarint_ok {bs rest : Bytes} :
    decodeVarint bs = .ok (v, rest) ↔ bs = encodeVarint v ++ rest := by
  rw [decodeVarint_codes bs v rest, true_and]

def encodeZigzagI64 (value : Int64) : UInt64 := ((value <<< 1) ^^^ (value >>> 63)).toUInt64

def decodeZigzagI64 (value : UInt64) : Int64 :=
  (value >>> 1).toInt64 ^^^ (-(value &&& 1).toInt64)

theorem getElem_neg_and_one (x : BitVec 64) (i : Nat) (hi : i < 64) :
    (-(x &&& 1#64))[i] = x[0] := by
  have hx : x &&& 1#64 = if x[0] then 1#64 else 0#64 := by
    ext j hj
    rcases j with _ | j
    · cases h : x[0] <;> simp [h]
    · cases h : x[0] <;> simp [BitVec.getElem_one]
  rw [hx]
  cases x[0] with
  | false => simp
  | true => rw [if_pos rfl, BitVec.neg_one_eq_allOnes, BitVec.getElem_allOnes]

theorem getElem_sshiftRight_63 (x : BitVec 64) (i : Nat) (hi : i < 64) :
    (x.sshiftRight 63)[i] = x.msb := by
  rw [BitVec.getElem_sshiftRight]
  split
  · rename_i h
    obtain rfl : i = 0 := by omega
    rfl
  · rfl

-- Both maps move the sign between bit 63 and bit 0 and flip the other bits by it.
theorem decodeZigzagI64_encodeZigzagI64 (v : Int64) : decodeZigzagI64 (encodeZigzagI64 v) = v := by
  rw [← Int64.toBitVec_inj]
  change (((v.toBitVec <<< 1) ^^^ v.toBitVec.sshiftRight 63) >>> 1) ^^^
    (-(((v.toBitVec <<< 1) ^^^ v.toBitVec.sshiftRight 63) &&& 1#64)) = v.toBitVec
  generalize v.toBitVec = x
  ext i hi
  rw [BitVec.getElem_xor, getElem_neg_and_one, BitVec.getElem_ushiftRight,
    BitVec.getLsbD_xor, BitVec.getElem_xor, getElem_sshiftRight_63]
  by_cases hlast : i = 63
  · subst hlast
    simp [BitVec.msb_eq_getLsbD_last]
  · have hsucc : 1 + i < 64 := by omega
    rw [BitVec.getLsbD_eq_getElem hsucc, BitVec.getLsbD_eq_getElem hsucc, getElem_sshiftRight_63]
    simp

theorem encodeZigzagI64_decodeZigzagI64 (u : UInt64) : encodeZigzagI64 (decodeZigzagI64 u) = u := by
  rw [← UInt64.toBitVec_inj]
  change (((u.toBitVec >>> 1) ^^^ (-(u.toBitVec &&& 1#64))) <<< 1) ^^^
    ((u.toBitVec >>> 1) ^^^ (-(u.toBitVec &&& 1#64))).sshiftRight 63 = u.toBitVec
  generalize u.toBitVec = x
  have hbit : ∀ j (hj : j < 64), ((x >>> 1) ^^^ (-(x &&& 1#64)))[j] =
      (x.getLsbD (1 + j) ^^ x[0]) := fun j hj => by
    rw [BitVec.getElem_xor, getElem_neg_and_one, BitVec.getElem_ushiftRight]
  have hmsb : ((x >>> 1) ^^^ (-(x &&& 1#64))).msb = x[0] := by
    rw [BitVec.msb_eq_getLsbD_last, BitVec.getLsbD_eq_getElem (by decide), hbit]
    simp
  ext i hi
  rw [BitVec.getElem_xor, BitVec.getElem_shiftLeft, getElem_sshiftRight_63, hmsb, hbit]
  rcases i with _ | i
  · simp
  · have hidx : 1 + (i + 1 - 1) = i + 1 := by omega
    rw [hidx, BitVec.getLsbD_eq_getElem hi]
    simp

end Chronoxide
