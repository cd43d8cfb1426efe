import Chronoxide.Encoding.Bitstream

/-! The XOR codec for doubles (`encoding/gorilla.rs`). Encoder and decoder are compared through the
bit string that a list of values stands for; the decoder refuses every other spelling of it. -/

namespace Chronoxide
open Codec Parser BitReader Reads List UInt64 Nat

def gorillaLeadingBits : Nat := 5
def gorillaLeadingMax : Nat := (1 <<< gorillaLeadingBits) - 1
def gorillaSigBits : Nat := 6

def leadingZeros (x : UInt64) : Nat := if x = 0 then 64 else 63 - x.toNat.log2

def trailingZerosLoop : Nat → Nat → Nat
  | 0, _ => 0
  | n + 1, x => if x % 2 = 1 then 0 else trailingZerosLoop n (x / 2) + 1

def trailingZeros (x : UInt64) : Nat := trailingZerosLoop 64 x.toNat

variable {x : UInt64}

section Zeros

theorem le_leadingZeros_iff (hx : x ≠ 0) {k : Nat} (hk : k ≤ 63) :
    k ≤ leadingZeros x ↔ x.toNat < 2 ^ (64 - k) := by
  have hx0 : x.toNat ≠ 0 := fun h => hx (UInt64.toNat_inj.mp h)
  have hlog : x.toNat.log2 < 64 := (log2_lt hx0).mpr x.toNat_lt
  rw [leadingZeros, if_neg hx, ← log2_lt hx0]
  omega

theorem le_trailingZerosLoop_iff {n x k : Nat} (hk : k ≤ n) :
    k ≤ trailingZerosLoop n x ↔ 2 ^ k ∣ x := by
  induction n generalizing x k with
  | zero =>
    obtain rfl : k = 0 := by omega
    simp
  | succ n ih =>
    rcases k with _ | k
    · simp
    rw [trailingZerosLoop]
    split
    · rename_i hodd
      have : ¬ 2 ^ (k + 1) ∣ x := fun h => by
        have : 2 ∣ x := dvd_trans (Dvd.intro_left (2 ^ k) rfl) h
        omega
      simp [this]
    · rename_i heven
      rw [add_le_add_iff_right, ih (by omega), pow_succ, dvd_div_iff_mul_dvd (by omega), mul_comm]

theorem le_trailingZeros_iff {k : Nat} (hk : k ≤ 64) :
    k ≤ trailingZeros x ↔ 2 ^ k ∣ x.toNat := le_trailingZerosLoop_iff hk

theorem leadingZeros_add_trailingZeros (hx : x ≠ 0) : leadingZeros x + trailingZeros x < 64 := by
  have hx0 : x.toNat ≠ 0 := fun h => hx (UInt64.toNat_inj.mp h)
  have hlead : leadingZeros x ≤ 63 := by rw [leadingZeros, if_neg hx]; omega
  have hlt := (le_leadingZeros_iff hx hlead).mp le_rfl
  by_contra hsum
  have hdvd := (le_trailingZeros_iff (x := x) (k := 64 - leadingZeros x) (by omega)).mp (by omega)
  exact absurd (le_of_dvd (pos_of_ne_zero hx0) hdvd) (by omega)

end Zeros

def extractSigBits (xor : UInt64) (trailing sigBits : Nat) : Except IoError UInt64 :=
  if sigBits = 0 ∨ sigBits > 64 then .error (invalidData "invalid significant bit count")
  else if sigBits = 64 then
    if trailing ≠ 0 then .error (invalidData "invalid trailing zeros for full-width xor")
    else .ok xor
  else .ok ((xor >>> ofNat trailing) &&& ((1 <<< ofNat sigBits) - 1))

structure GorillaEncoder where
  writer : BitWriter
  prev : Option UInt64
  prevLeading : Nat
  prevTrailing : Nat
  hasWindow : Bool
  deriving DecidableEq, Repr

namespace GorillaEncoder

def new : GorillaEncoder := ⟨.new, none, 0, 0, false⟩

variable (self : GorillaEncoder)

def push (value : F64) : Except IoError GorillaEncoder :=
  match self.prev with
  | none => .ok { self with writer := self.writer.writeBits value.bits 64, prev := some value.bits }
  | some prev => do
    let xor := prev ^^^ value.bits
    if xor = 0 then
      return { self with writer := self.writer.writeBit false, prev := some value.bits }
    else
      let writer := self.writer.writeBit true
      let leading := leadingZeros xor
      let trailing := trailingZeros xor
      if self.hasWindow ∧ leading ≥ self.prevLeading ∧ trailing ≥ self.prevTrailing then
        let writer := writer.writeBit false
        let sigBits := 64 - self.prevLeading - self.prevTrailing
        let payload ← extractSigBits xor self.prevTrailing sigBits
        return { self with writer := writer.writeBits payload sigBits, prev := some value.bits }
      else
        let writer := writer.writeBit true
        let storeLeading := min leading gorillaLeadingMax
        let sigBits := 64 - storeLeading - trailing
        let lenCode := if sigBits = 64 then 0 else sigBits
        let writer := writer.writeBits (ofNat storeLeading) gorillaLeadingBits
        let writer := writer.writeBits (ofNat lenCode) gorillaSigBits
        let payload ← extractSigBits xor trailing sigBits
        return { writer := writer.writeBits payload sigBits, prev := some value.bits,
                 prevLeading := storeLeading, prevTrailing := trailing, hasWindow := true }

def finish : Bytes := self.writer.finish

def snapshot : Bytes := self.writer.snapshot

def lenBytes : Nat := self.writer.lenBytes

end GorillaEncoder

def encodeGorillaValues (values : List F64) : Except IoError Bytes :=
  if values = [] then .error (invalidInput "values must be non-empty")
  else do
    let encoder ← values.foldlM GorillaEncoder.push GorillaEncoder.new
    return encoder.finish

def minimumGorillaEncodedLenBytes (count : Nat) : Except IoError Nat :=
  if count = 0 then .ok 0
  else if count - 1 + 64 + 7 < 2 ^ 64 then .ok ((count - 1 + 64 + 7) / 8)
  else .error (invalidData "gorilla minimum encoded size overflows")

structure GorillaState where
  prev : UInt64
  prevLeading : Nat
  prevTrailing : Nat
  hasWindow : Bool
  deriving DecidableEq, Repr

def decodeGorillaWindow (s : GorillaState) (control2 : UInt64) : BitM (Nat × Nat × Nat) := do
  if control2 = 0 then
    Parser.ensure s.hasWindow (invalidData "gorilla window missing")
    return (s.prevLeading, s.prevTrailing, 64 - s.prevLeading - s.prevTrailing)
  else
    let leading := (← BitReader.readBits gorillaLeadingBits).toUInt8.toNat
    let lenCode := (← BitReader.readBits gorillaSigBits).toUInt8.toNat
    let sigBits := if lenCode = 0 then 64 else lenCode
    Parser.ensure (leading + sigBits ≤ 64) (invalidData "gorilla window invalid")
    return (leading, 64 - leading - sigBits, sigBits)

def decodeGorillaValue (s : GorillaState) : BitM GorillaState := do
  let control ← BitReader.readBit
  if control = 0 then return s
  else
    let control2 ← BitReader.readBit
    let (leading, trailing, sigBits) ← decodeGorillaWindow s control2
    Parser.ensure (¬(sigBits = 64 ∧ (leading ≠ 0 ∨ trailing ≠ 0)))
      (invalidData "gorilla window length mismatch")
    let xorBits ← BitReader.readBits sigBits
    let xor := xorBits <<< ofNat trailing
    Parser.ensure (xor ≠ 0) (invalidData "gorilla zero xor must use the repeated-value control")
    if control2 ≠ 0 then
      let canonicalLeading := min (leadingZeros xor) gorillaLeadingMax
      let canonicalTrailing := trailingZeros xor
      Parser.ensure (leading = canonicalLeading ∧ trailing = canonicalTrailing)
        (invalidData "gorilla new window is noncanonical for its xor")
      Parser.ensure (¬(s.hasWindow ∧ canonicalLeading ≥ s.prevLeading ∧
          canonicalTrailing ≥ s.prevTrailing))
        (invalidData "gorilla new window must reuse the prior window")
      return ⟨s.prev ^^^ xor, leading, trailing, true⟩
    else return { s with prev := s.prev ^^^ xor }

def decodeGorillaLoop : Nat → GorillaState → BitM (List F64)
  | 0, _ => return []
  | n + 1, s => do
    let s ← decodeGorillaValue s
    let values ← decodeGorillaLoop n s
    return ⟨s.prev⟩ :: values

def decodeGorillaStream (count : Nat) : BitM (List F64) := do
  let first ← BitReader.readBits 64
  let values ← decodeGorillaLoop (count - 1) ⟨first, 0, 0, false⟩
  BitReader.requireCanonicalEnd
  return ⟨first⟩ :: values

def decodeGorillaValues (buf : Bytes) (count : Nat) : Except IoError (List F64) :=
  if count = 0 then
    if buf ≠ [] then .error (invalidData "gorilla stream has trailing bytes") else .ok []
  else do
    let minimumLen ← minimumGorillaEncodedLenBytes count
    if buf.length < minimumLen then
      throw (invalidData "gorilla point count is infeasible for the encoded value bytes")
    let (values, _) ← decodeGorillaStream count (BitReader.new buf)
    return values

variable {s : GorillaState} {leading trailing sigBits : Nat}

namespace GorillaState

variable (s)

def step (bits : UInt64) : List Bool × GorillaState :=
  let xor := s.prev ^^^ bits
  let leading := leadingZeros xor
  let trailing := trailingZeros xor
  if xor = 0 then ([false], { s with prev := bits })
  else if s.hasWindow ∧ leading ≥ s.prevLeading ∧ trailing ≥ s.prevTrailing then
    (true :: false :: bitsBE (64 - s.prevLeading - s.prevTrailing)
      (xor.toNat / 2 ^ s.prevTrailing), { s with prev := bits })
  else
    let storeLeading := min leading gorillaLeadingMax
    let sigBits := 64 - storeLeading - trailing
    (true :: true :: (bitsBE gorillaLeadingBits storeLeading ++ (bitsBE gorillaSigBits sigBits ++
      bitsBE sigBits (xor.toNat / 2 ^ trailing))), ⟨bits, storeLeading, trailing, true⟩)

/-- A stored window leaves at least one significant bit. -/
def Wf : Prop :=
  s.hasWindow → s.prevLeading ≤ gorillaLeadingMax ∧ s.prevLeading + s.prevTrailing < 64

theorem window_bound (hx : x ≠ 0) :
    min (leadingZeros x) gorillaLeadingMax + trailingZeros x < 64 := by
  have := leadingZeros_add_trailingZeros hx
  omega

theorem xor_xor_self (a x : UInt64) : a ^^^ (a ^^^ x) = x := by
  rw [← UInt64.xor_assoc, UInt64.xor_self, UInt64.zero_xor]

theorem step_same : s.step s.prev = ([false], s) := by simp [step]

variable {s}

theorem step_reuse (hx : x ≠ 0) (hw : s.hasWindow)
    (hlead : s.prevLeading ≤ leadingZeros x) (htrail : s.prevTrailing ≤ trailingZeros x) :
    s.step (s.prev ^^^ x) =
      (true :: false :: bitsBE (64 - s.prevLeading - s.prevTrailing)
        (x.toNat / 2 ^ s.prevTrailing), { s with prev := s.prev ^^^ x }) := by
  rw [step]
  rw [xor_xor_self, if_neg hx, if_pos ⟨hw, hlead, htrail⟩]

theorem step_new (hx : x ≠ 0) (hs : s.Wf)
    (hnew : ¬(s.hasWindow ∧ leading ≥ s.prevLeading ∧ trailing ≥ s.prevTrailing))
    (hlead : leading = min (leadingZeros x) gorillaLeadingMax)
    (htrail : trailing = trailingZeros x) (hsig : sigBits = 64 - leading - trailing) :
    s.step (s.prev ^^^ x) =
      (true :: true :: (bitsBE gorillaLeadingBits leading ++ (bitsBE gorillaSigBits sigBits ++
        bitsBE sigBits (x.toNat / 2 ^ trailing))), ⟨s.prev ^^^ x, leading, trailing, true⟩) := by
  have hnot : ¬(s.hasWindow ∧ leadingZeros x ≥ s.prevLeading ∧
      trailingZeros x ≥ s.prevTrailing) := by
    rintro ⟨hw, h1, h2⟩
    have := (hs hw).1
    exact hnew ⟨hw, by omega, by omega⟩
  rw [step]
  rw [xor_xor_self, if_neg hx, if_neg hnot, hsig, hlead, htrail]

theorem step_wf (hs : s.Wf) (bits : UInt64) : (s.step bits).2.Wf := by
  unfold step
  dsimp only
  split
  · exact hs
  rename_i hx
  split
  · exact hs
  · exact fun _ => ⟨min_le_right _ _, window_bound hx⟩

variable (s : GorillaState)

theorem step_prev (bits : UInt64) : (s.step bits).2.prev = bits := by
  unfold step
  dsimp only
  split
  · rfl
  · split <;> rfl

theorem step_length_pos (bits : UInt64) : 0 < (s.step bits).1.length := by
  unfold step
  dsimp only
  split
  · simp
  · split <;> simp

def stream : GorillaState → List F64 → List Bool
  | _, [] => []
  | s, v :: vs => (s.step v.bits).1 ++ stream (s.step v.bits).2 vs

theorem stream_length_ge (vs : List F64) : vs.length ≤ (s.stream vs).length := by
  induction vs generalizing s with
  | nil => exact zero_le _
  | cons v vs ih =>
    have hstep := step_length_pos s v.bits
    have htail := ih (s.step v.bits).2
    rw [stream, length_append, length_cons]
    omega

end GorillaState

/-- The bits of a non-empty list: the first value whole, then each against its predecessor. -/
def gorillaBits : List F64 → List Bool
  | [] => []
  | v :: vs => bitsBE 64 v.bits.toNat ++ GorillaState.stream ⟨v.bits, 0, 0, false⟩ vs

theorem extractSigBits_ok (x : UInt64) {trailing sigBits : Nat} (hpos : 0 < sigBits)
    (hfit : trailing + sigBits ≤ 64) :
    ∃ p, extractSigBits x trailing sigBits = .ok p ∧
      bitsBE sigBits p.toNat = bitsBE sigBits (x.toNat / 2 ^ trailing) := by
  rw [extractSigBits, if_neg (by omega)]
  split
  · rename_i h64
    obtain rfl : trailing = 0 := by omega
    exact ⟨x, if_neg (by simp), by simp⟩
  refine ⟨_, rfl, ?_⟩
  have hshift : (UInt64.ofNat trailing).toNat % 64 = trailing := by
    rw [UInt64.toNat_ofNat_of_lt' (by simp [UInt64.size]; omega), Nat.mod_eq_of_lt (by omega)]
  have hmask : ((1 <<< UInt64.ofNat sigBits) - 1 : UInt64).toNat = 2 ^ sigBits - 1 := by
    have hlt : (2 : Nat) ^ sigBits < 2 ^ 64 := Nat.pow_lt_pow_right (by decide) (by omega)
    have hone : ((1 : UInt64) <<< UInt64.ofNat sigBits).toNat = 2 ^ sigBits := by
      rw [UInt64.toNat_shiftLeft, UInt64.toNat_ofNat_of_lt' (by simp [UInt64.size]; omega),
        Nat.mod_eq_of_lt (show sigBits < 64 by omega), UInt64.toNat_one, Nat.one_shiftLeft,
        Nat.mod_eq_of_lt hlt]
    have hle : (1 : UInt64) ≤ 1 <<< UInt64.ofNat sigBits := by
      rw [UInt64.le_iff_toNat_le, hone]
      exact Nat.one_le_two_pow
    rw [UInt64.toNat_sub_of_le _ _ hle, hone, UInt64.toNat_one]
  rw [UInt64.toNat_and, UInt64.toNat_shiftRight, hshift, hmask, Nat.and_two_pow_sub_one_eq_mod,
    bitsBE_mod, Nat.shiftRight_eq_div_pow]

variable {bs : List Bool}

namespace GorillaEncoder

/-- The encoder has written `bs` and stands where the decoder's loop stands at `s`. -/
structure Tracks (e : GorillaEncoder) (s : GorillaState) (bs : List Bool) : Prop where
  prev : e.prev = some s.prev
  prevLeading : e.prevLeading = s.prevLeading
  prevTrailing : e.prevTrailing = s.prevTrailing
  hasWindow : e.hasWindow = s.hasWindow
  writer : e.writer.Denotes bs
  aligned : e.writer.bitLen < 8

theorem push_first (v : F64) : ∃ e, GorillaEncoder.new.push v = .ok e ∧
    e.Tracks ⟨v.bits, 0, 0, false⟩ (bitsBE 64 v.bits.toNat) := by
  have hw := BitWriter.new_wrote.bits (le_refl 64) v.bits
  exact ⟨_, rfl, rfl, rfl, rfl, rfl, hw.denotes, hw.pending⟩

theorem ofNat_bits {n x : Nat} (hx : x < 2 ^ 64) : bitsBE n (ofNat x).toNat = bitsBE n x := by
  rw [toNat_ofNat_of_lt' hx]

open GorillaState

theorem push_step {e : GorillaEncoder} (h : e.Tracks s bs) (hs : s.Wf) (v : F64) :
    ∃ e', e.push v = .ok e' ∧ e'.Tracks (s.step v.bits).2 (bs ++ (s.step v.bits).1) := by
  obtain ⟨writer, prev, prevLeading, prevTrailing, hasWindow⟩ := e
  obtain ⟨sprev, sLeading, sTrailing, sWindow⟩ := s
  obtain ⟨hprev, hlead, htrail, hwindow, hd, hl⟩ := h
  dsimp only at hprev hlead htrail hwindow hd hl
  subst hprev hlead htrail hwindow
  have hw : writer.Wrote bs := ⟨hd, hl⟩
  rw [push, step]
  dsimp only
  split
  · have hw := hw.bit false
    exact ⟨_, rfl, rfl, rfl, rfl, rfl, hw.denotes, hw.pending⟩
  rename_i hx
  split
  · -- the stored window is reused
    rename_i hreuse
    obtain ⟨-, hbound⟩ := hs hreuse.1
    dsimp only at hbound
    generalize hsig : 64 - prevLeading - prevTrailing = sigBits
    obtain ⟨p, hp, hbits⟩ := extractSigBits_ok (sprev ^^^ v.bits) (show 0 < sigBits by omega)
      (show prevTrailing + sigBits ≤ 64 by omega)
    have hw := ((hw.bit true).bit false).bits (show sigBits ≤ 64 by omega) p
    rw [hbits] at hw
    exact ⟨_, by rw [hp]; rfl, rfl, rfl, rfl, rfl, by simpa using hw.denotes, hw.pending⟩
  have hbound := window_bound hx
  have hmax : min (leadingZeros (sprev ^^^ v.bits)) gorillaLeadingMax ≤ 31 := min_le_right _ _
  generalize min (leadingZeros (sprev ^^^ v.bits)) gorillaLeadingMax = storeLeading at *
  generalize trailingZeros (sprev ^^^ v.bits) = trailing at *
  generalize hsig : 64 - storeLeading - trailing = sigBits
  obtain ⟨p, hp, hbits⟩ := extractSigBits_ok (sprev ^^^ v.bits) (show 0 < sigBits by omega)
    (show trailing + sigBits ≤ 64 by omega)
  have hw := ((((hw.bit true).bit true).bits (show gorillaLeadingBits ≤ 64 by decide)
    (ofNat storeLeading)).bits (show gorillaSigBits ≤ 64 by decide)
    (ofNat (if sigBits = 64 then 0 else sigBits))).bits (show sigBits ≤ 64 by omega) p
  have hlen : bitsBE gorillaSigBits (ofNat (if sigBits = 64 then 0 else sigBits)).toNat =
      bitsBE gorillaSigBits sigBits := by
    split
    · rename_i h64
      rw [h64]
      rfl
    · rw [ofNat_bits (by omega)]
  rw [hbits, hlen, ofNat_bits (by omega)] at hw
  exact ⟨_, by rw [hp]; rfl, rfl, rfl, rfl, rfl, by simpa using hw.denotes, hw.pending⟩

theorem push_all {e : GorillaEncoder} (h : e.Tracks s bs) (hs : s.Wf) (vs : List F64) :
    ∃ e', vs.foldlM push e = .ok e' ∧ e'.writer.Wrote (bs ++ s.stream vs) := by
  induction vs generalizing e s bs with
  | nil => exact ⟨e, rfl, by simpa [stream] using h.writer, h.aligned⟩
  | cons v vs ih =>
    obtain ⟨e', hpush, htrack⟩ := push_step h hs v
    obtain ⟨e'', hrest, hw⟩ := ih htrack (step_wf hs v.bits)
    refine ⟨e'', ?_, ?_⟩
    · rw [foldlM_cons, hpush]
      exact hrest
    · rw [stream, ← append_assoc]
      exact hw

theorem initial_wf (first : UInt64) : GorillaState.Wf ⟨first, 0, 0, false⟩ := fun h => by cases h

theorem push_values (v : F64) (vs : List F64) :
    ∃ e, (v :: vs).foldlM push GorillaEncoder.new = .ok e ∧
      e.writer.Wrote (gorillaBits (v :: vs)) := by
  obtain ⟨e, hfirst, htrack⟩ := push_first v
  obtain ⟨e', hrest, hw⟩ := push_all htrack (initial_wf v.bits) vs
  refine ⟨e', ?_, hw⟩
  rw [foldlM_cons, hfirst]
  exact hrest

end GorillaEncoder

variable {values : List F64}

open GorillaEncoder

theorem encodeGorillaValues_bits (h : values ≠ []) :
    ∃ out, encodeGorillaValues values = .ok out ∧
      byteBits out = gorillaBits values ++ BitWriter.padding (gorillaBits values) := by
  obtain ⟨v, vs, rfl⟩ := exists_cons_of_ne_nil h
  obtain ⟨e, hpush, hw⟩ := push_values v vs
  refine ⟨e.finish, ?_, hw.finish⟩
  rw [encodeGorillaValues, if_neg h, hpush]
  rfl

theorem toNat_shift_window {trailing sigBits : Nat} (hpos : 0 < sigBits)
    (hx : x.toNat < 2 ^ sigBits) (hfit : trailing + sigBits ≤ 64) :
    (x <<< UInt64.ofNat trailing).toNat = x.toNat * 2 ^ trailing := by
  have hlt : x.toNat * 2 ^ trailing < 2 ^ 64 := by
    calc x.toNat * 2 ^ trailing < 2 ^ sigBits * 2 ^ trailing :=
          Nat.mul_lt_mul_of_pos_right hx (Nat.two_pow_pos _)
      _ ≤ 2 ^ 64 := by rw [← pow_add]; exact Nat.pow_le_pow_right (by decide) (by omega)
  rw [UInt64.toNat_shiftLeft, UInt64.toNat_ofNat_of_lt' (by simp [UInt64.size]; omega),
    Nat.mod_eq_of_lt (show trailing < 64 by omega), Nat.shiftLeft_eq, Nat.mod_eq_of_lt hlt]

theorem shift_window_back (hpos : 0 < sigBits)
    (hsum : leading + trailing + sigBits = 64) (hlead : x.toNat < 2 ^ (64 - leading))
    (htrail : 2 ^ trailing ∣ x.toNat) :
    x.toNat / 2 ^ trailing < 2 ^ sigBits ∧
      UInt64.ofNat (x.toNat / 2 ^ trailing) <<< UInt64.ofNat trailing = x := by
  have hlt : x.toNat / 2 ^ trailing < 2 ^ sigBits := by
    rw [Nat.div_lt_iff_lt_mul (Nat.two_pow_pos _), ← pow_add]
    rwa [show sigBits + trailing = 64 - leading by omega]
  have hword : x.toNat / 2 ^ trailing < UInt64.size :=
    lt_of_le_of_lt (Nat.div_le_self _ _) x.toNat_lt
  refine ⟨hlt, ?_⟩
  rw [← UInt64.toNat_inj, toNat_shift_window hpos (by rwa [UInt64.toNat_ofNat_of_lt' hword])
    (by omega), toNat_ofNat_of_lt' hword, Nat.div_mul_cancel htrail]

variable {r r' : BitReader}

theorem decodeGorillaWindow_reuse {w : Nat × Nat × Nat} :
    decodeGorillaWindow s 0 r = .ok (w, r') ↔
      s.hasWindow ∧ (s.prevLeading, s.prevTrailing, 64 - s.prevLeading - s.prevTrailing) = w ∧
        r = r' := by
  simp only [decodeGorillaWindow, if_true, bind_ok, ensure_ok, exists_ensure, pure_ok]

theorem toUInt8_toNat {v : UInt64} (h : v.toNat < 256) : v.toUInt8.toNat = v.toNat := by
  rw [toNat_toUInt8, mod_eq_of_lt h]

theorem decodeGorillaWindow_new (hr : r.Denotes bs)
    (h : decodeGorillaWindow s 1 r = .ok ((leading, trailing, sigBits), r')) :
    0 < sigBits ∧ leading + sigBits ≤ 64 ∧ trailing = 64 - leading - sigBits ∧
      ∃ bs', bs = bitsBE gorillaLeadingBits leading ++ (bitsBE gorillaSigBits sigBits ++ bs') ∧
        r'.Denotes bs' := by
  simp only [decodeGorillaWindow] at h
  rw [if_neg (by decide)] at h
  simp only [bind_ok, ensure_ok, exists_ensure, pure_ok] at h
  obtain ⟨l, r1, hl, k, r2, hk, hfit, hw, rfl⟩ := h
  obtain ⟨bs1, hl5, rfl, hr1⟩ := (readBits_ok hr (by decide)).mp hl
  obtain ⟨bs2, hk6, rfl, hr2⟩ := (readBits_ok hr1 (by decide)).mp hk
  simp only [gorillaLeadingBits, gorillaSigBits] at hl5 hk6
  rw [toUInt8_toNat (by omega), toUInt8_toNat (by omega)] at hfit hw
  obtain ⟨rfl, rfl, rfl⟩ := hw
  refine ⟨by split <;> omega, hfit, rfl, bs2, ?_, hr2⟩
  -- the length code zero stands for all sixty-four bits
  have hcode : bitsBE gorillaSigBits (if k.toNat = 0 then 64 else k.toNat) =
      bitsBE gorillaSigBits k.toNat := by
    split
    · rename_i h0
      rw [h0]
      rfl
    · rfl
  rw [hcode]

theorem decodeGorillaValue_sound {s s' : GorillaState} (hs : s.Wf)
    (hr : r.Denotes bs) (h : decodeGorillaValue s r = .ok (s', r')) :
    ∃ bs', s' = (s.step s'.prev).2 ∧ bs = (s.step s'.prev).1 ++ bs' ∧ r'.Denotes bs' := by
  simp only [decodeGorillaValue, bind_ok] at h
  obtain ⟨c, r1, hread, h⟩ := h
  obtain ⟨b, bs1, rfl, rfl, hr1⟩ := (readBit_ok hr).mp hread
  cases b with
  | false =>
    obtain ⟨rfl, rfl⟩ := h
    exact ⟨bs1, by rw [GorillaState.step_same], by rw [GorillaState.step_same]; rfl, hr1⟩
  | true =>
    rw [if_neg (by decide)] at h
    simp only [bind_ok, ensure_ok, exists_ensure] at h
    obtain ⟨c2, r2, hread2, ⟨leading, trailing, sigBits⟩, r3, hwindow, -, x, r5, hreadx, hx, h⟩ := h
    dsimp only at hreadx hx h
    obtain ⟨b2, bs2, rfl, rfl, hr2⟩ := (readBit_ok hr1).mp hread2
    cases b2 with
    | false =>
      obtain ⟨hw, hfields, rfl⟩ := decodeGorillaWindow_reuse.mp hwindow
      obtain ⟨rfl, rfl, rfl⟩ := hfields
      obtain ⟨hmax, hbound⟩ := hs hw
      obtain ⟨rfl, rfl⟩ := h
      obtain ⟨bs3, hlt, rfl, hr5⟩ := (readBits_ok hr2 (by omega)).mp hreadx
      have hval := toNat_shift_window (by omega) hlt
        (show s.prevTrailing + (64 - s.prevLeading - s.prevTrailing) ≤ 64 by omega)
      have hlead : s.prevLeading ≤ leadingZeros (x <<< ofNat s.prevTrailing) := by
        rw [le_leadingZeros_iff hx (by omega), hval]
        calc x.toNat * 2 ^ s.prevTrailing
            < 2 ^ (64 - s.prevLeading - s.prevTrailing) * 2 ^ s.prevTrailing :=
              Nat.mul_lt_mul_of_pos_right hlt (Nat.two_pow_pos _)
          _ = 2 ^ (64 - s.prevLeading) := by rw [← pow_add]; congr 1; omega
      have htrail : s.prevTrailing ≤ trailingZeros (x <<< ofNat s.prevTrailing) := by
        rw [le_trailingZeros_iff (by omega), hval]
        exact Dvd.intro_left _ rfl
      have hstep := GorillaState.step_reuse hx hw hlead htrail
      rw [hval, Nat.mul_div_cancel _ (Nat.two_pow_pos _)] at hstep
      exact ⟨bs3, by rw [hstep], by rw [hstep]; rfl, hr5⟩
    | true =>
      rw [if_pos (by decide)] at h
      simp only [bind_ok, ensure_ok, exists_ensure, pure_ok] at h
      obtain ⟨⟨hlead, htrail⟩, hnew, rfl, rfl⟩ := h
      rw [← hlead, ← htrail] at hnew
      obtain ⟨hpos, hfit, hsum, bs3, rfl, hr3⟩ := decodeGorillaWindow_new hr2 hwindow
      obtain ⟨bs4, hlt, rfl, hr5⟩ := (readBits_ok hr3 (by omega)).mp hreadx
      have hval := toNat_shift_window hpos hlt (show trailing + sigBits ≤ 64 by omega)
      have hstep := GorillaState.step_new hx hs hnew hlead htrail
        (show sigBits = 64 - leading - trailing by omega)
      rw [hval, Nat.mul_div_cancel _ (Nat.two_pow_pos _)] at hstep
      exact ⟨bs4, by rw [hstep], by rw [hstep]; simp, hr5⟩

open BitReader in
theorem decodeGorillaWindow_reads_new {leading sigBits : Nat} (hpos : 0 < sigBits)
    (hlead : leading ≤ gorillaLeadingMax) (hfit : leading + sigBits ≤ 64) :
    Reads (decodeGorillaWindow s 1) (bitsBE gorillaLeadingBits leading ++
      bitsBE gorillaSigBits sigBits) (leading, 64 - leading - sigBits, sigBits) := by
  have hlead' : leading < 2 ^ gorillaLeadingBits := Nat.lt_of_le_sub_one (by decide) hlead
  have hcode : (if sigBits % 2 ^ gorillaSigBits = 0 then 64 else sigBits % 2 ^ gorillaSigBits) =
      sigBits := by
    rw [gorillaSigBits]
    split <;> omega
  have hbyte {n : Nat} (hn : n < 256) : (ofNat n).toUInt8.toNat = n := by
    rw [toNat_toUInt8, toNat_ofNat_of_lt' (hn.trans (by decide)), Nat.mod_eq_of_lt hn]
  rw [decodeGorillaWindow, if_neg (by decide), ← bitsBE_mod gorillaSigBits]
  refine (reads_bits (by decide) hlead').seq
    ((reads_bits (by decide) (Nat.mod_lt _ (Nat.two_pow_pos _))).last ?_)
  rw [hbyte (hlead'.trans (by decide)), hbyte (by rw [gorillaSigBits]; omega)]
  refine ensure (by rwa [hcode]) ?_
  rw [hcode]
  exact ret _

open BitReader in
theorem decodeGorillaValue_reads (hs : s.Wf) (v : UInt64) :
    Reads (decodeGorillaValue s) (s.step v).1 (s.step v).2 := by
  obtain ⟨x, rfl⟩ : ∃ x, v = s.prev ^^^ x :=
    ⟨s.prev ^^^ v, (GorillaState.xor_xor_self _ _).symm⟩
  by_cases hx : x = 0
  · subst hx
    rw [UInt64.xor_zero, GorillaState.step_same]
    exact (reads_bit false).last (ret s)
  have hlz : leadingZeros x ≤ 63 := by
    have := leadingZeros_add_trailingZeros hx
    omega
  by_cases hreuse : s.hasWindow ∧ s.prevLeading ≤ leadingZeros x ∧
      s.prevTrailing ≤ trailingZeros x
  · obtain ⟨hw, hlead, htrail⟩ := hreuse
    obtain ⟨hmax, hbound⟩ := hs hw
    rw [GorillaState.step_reuse hx hw hlead htrail]
    obtain ⟨hlt, hback⟩ := shift_window_back
      (show 0 < 64 - s.prevLeading - s.prevTrailing by omega) (by omega)
      ((le_leadingZeros_iff hx (by omega)).mp hlead) ((le_trailingZeros_iff (by omega)).mp htrail)
    refine (reads_bit true).seq ((reads_bit false).seq
      ((ensure hw (ret _)).seq (ensure (by omega)
        ((reads_bits (by omega) hlt).last (ensure (by rwa [hback]) ?_)))))
    rw [if_neg (by decide), hback]
    exact ret _
  have hbound := GorillaState.window_bound hx
  obtain ⟨leading, hL⟩ : ∃ leading, leading = min (leadingZeros x) gorillaLeadingMax := ⟨_, rfl⟩
  obtain ⟨trailing, hT⟩ : ∃ trailing, trailing = trailingZeros x := ⟨_, rfl⟩
  have hnew : ¬(s.hasWindow ∧ leading ≥ s.prevLeading ∧ trailing ≥ s.prevTrailing) := by
    rintro ⟨hw, h1, h2⟩
    exact hreuse ⟨hw, by omega, by omega⟩
  have hpos : 0 < 64 - leading - trailing := by omega
  obtain ⟨hlt, hback⟩ := shift_window_back hpos (show leading + trailing + _ = 64 by omega)
    ((le_leadingZeros_iff hx (by omega)).mp (by omega)) ((le_trailingZeros_iff (by omega)).mp hT.le)
  have hwindow := decodeGorillaWindow_reads_new (s := s) hpos (hL.trans_le (min_le_right _ _))
    (by omega)
  rw [show 64 - leading - (64 - leading - trailing) = trailing by omega] at hwindow
  rw [GorillaState.step_new hx hs hnew hL hT rfl, ← append_assoc]
  refine (reads_bit true).seq ((reads_bit true).seq (hwindow.seq (ensure (by omega)
    ((reads_bits (by omega) hlt).last (ensure (by rwa [hback]) ?_)))))
  rw [if_pos (by decide), hback]
  exact ensure ⟨hL, hT⟩ (ensure (by rwa [← hL, ← hT]) (ret _))

theorem decodeGorillaLoop_sound {n : Nat} (hs : s.Wf) (hr : r.Denotes bs) {vs : List F64}
    (h : decodeGorillaLoop n s r = .ok (vs, r')) :
    vs.length = n ∧ ∃ bs', bs = s.stream vs ++ bs' ∧ r'.Denotes bs' := by
  induction n generalizing s r bs vs with
  | zero =>
    obtain ⟨rfl, rfl⟩ := h
    exact ⟨rfl, bs, rfl, hr⟩
  | succ n ih =>
    simp only [decodeGorillaLoop, bind_ok, pure_ok] at h
    obtain ⟨s1, r1, hvalue, vs1, r2, hloop, rfl, rfl⟩ := h
    obtain ⟨bs1, hs1, rfl, hr1⟩ := decodeGorillaValue_sound hs hr hvalue
    have hwf : s1.Wf := hs1 ▸ GorillaState.step_wf hs s1.prev
    obtain ⟨rfl, bs2, rfl, hr2⟩ := ih hwf hr1 hloop
    refine ⟨rfl, bs2, ?_, hr2⟩
    rw [GorillaState.stream, ← hs1, append_assoc]

open BitReader in
theorem decodeGorillaLoop_reads (hs : s.Wf) (vs : List F64) :
    Reads (decodeGorillaLoop vs.length s) (s.stream vs) vs := by
  induction vs generalizing s with
  | nil => exact ret []
  | cons v vs ih =>
    refine (decodeGorillaValue_reads hs v.bits).seq
      ((ih (GorillaState.step_wf hs v.bits)).last ?_)
    rw [GorillaState.step_prev]
    exact ret _

variable {buf : Bytes}

theorem padding_eq {bs pad : List Bool} (h : byteBits buf = bs ++ pad) (hlen : pad.length < 8)
    (hzero : pad = replicate pad.length false) : pad = BitWriter.padding bs := by
  have hcount := congrArg length h
  rw [byteBits_length, length_append] at hcount
  rw [hzero, BitWriter.padding]
  congr 1
  omega

variable {count : Nat}

theorem decodeGorillaStream_ok (hpos : count ≠ 0) :
    (∃ r', decodeGorillaStream count (BitReader.new buf) = .ok (values, r')) ↔
      values.length = count ∧
        byteBits buf = gorillaBits values ++ BitWriter.padding (gorillaBits values) := by
  simp only [decodeGorillaStream, bind_ok, pure_ok]
  constructor
  · rintro ⟨r', first, r1, hfirst, vs, r2, hloop, _, r3, hend, rfl, rfl⟩
    obtain ⟨bs1, -, hbits, hr1⟩ :=
      (readBits_ok (new_denotes buf) le_rfl).mp hfirst
    obtain ⟨hlen, bs2, rfl, hr2⟩ := decodeGorillaLoop_sound (initial_wf first) hr1 hloop
    obtain ⟨-, hshort, hzero⟩ := (requireCanonicalEnd_ok hr2).mp hend
    rw [← append_assoc] at hbits
    have hpad := padding_eq hbits hshort hzero
    refine ⟨by rw [length_cons]; omega, ?_⟩
    rw [hbits, hpad]
    rfl
  rintro ⟨hlen, hbits⟩
  obtain ⟨v, vs, rfl⟩ : ∃ v vs', values = v :: vs' :=
    exists_cons_of_length_pos (by omega)
  have hr := new_denotes buf
  rw [hbits, gorillaBits, append_assoc] at hr
  obtain ⟨r1, hfirst, hr1⟩ := reads_bits le_rfl v.bits.toNat_lt _ _ hr
  rw [UInt64.ofNat_toNat] at hfirst
  obtain ⟨r2, hloop, hr2⟩ := decodeGorillaLoop_reads (initial_wf v.bits) vs _ _ hr1
  have hend : requireCanonicalEnd r2 = .ok ((), r2) := by
    rw [requireCanonicalEnd_ok hr2, BitWriter.padding, length_replicate]
    exact ⟨rfl, mod_lt _ (by decide), rfl⟩
  rw [length_cons] at hlen
  rw [show vs.length = count - 1 by omega] at hloop
  exact ⟨r2, v.bits, r1, hfirst, vs, r2, hloop, (), r2, hend, rfl, rfl⟩

theorem gorillaBits_length (h : values ≠ []) :
    64 + (values.length - 1) ≤ (gorillaBits values).length := by
  obtain ⟨v, vs, rfl⟩ := exists_cons_of_ne_nil h
  have := GorillaState.stream_length_ge ⟨v.bits, 0, 0, false⟩ vs
  rw [gorillaBits, length_append, bitsBE_length, length_cons]
  omega

theorem decodeGorillaValues_eq_ok (hpos : count ≠ 0) (hcount : count + 70 < 2 ^ 64) :
    decodeGorillaValues buf count = .ok values ↔
      (count - 1 + 64 + 7) / 8 ≤ buf.length ∧
        ∃ r', decodeGorillaStream count (new buf) = .ok (values, r') := by
  have hmin : minimumGorillaEncodedLenBytes count = .ok ((count - 1 + 64 + 7) / 8) := by
    rw [minimumGorillaEncodedLenBytes, if_neg hpos, if_pos (by omega)]
  rw [decodeGorillaValues, if_neg hpos, hmin]
  change (if buf.length < _ then _ else _) = _ ↔ _
  split
  · rename_i hshort
    constructor
    · intro h
      cases h
    · rintro ⟨hle, -⟩
      omega
  · rename_i henough
    rcases decodeGorillaStream count (new buf) with e | ⟨vs, r⟩
    · simp [bind, Except.bind]
    · simp [bind, Except.bind, pure, Except.pure, not_lt.mp henough]

theorem decodeGorillaValues_ok (hpos : count ≠ 0) (hcount : count + 70 < 2 ^ 64) :
    decodeGorillaValues buf count = .ok values ↔
      values.length = count ∧ encodeGorillaValues values = .ok buf := by
  rw [decodeGorillaValues_eq_ok hpos hcount, decodeGorillaStream_ok hpos]
  constructor
  · rintro ⟨-, rfl, hbits⟩
    obtain ⟨out, hout, hbits'⟩ := encodeGorillaValues_bits
      (length_pos_iff.mp (pos_of_ne_zero hpos))
    refine ⟨rfl, ?_⟩
    rw [hout, byteBits_injective (hbits'.trans hbits.symm)]
  rintro ⟨rfl, henc⟩
  have hne : values ≠ [] := length_pos_iff.mp (pos_of_ne_zero hpos)
  obtain ⟨out, hout, hbits⟩ := encodeGorillaValues_bits hne
  obtain rfl : out = buf := by simpa using hout.symm.trans henc
  refine ⟨?_, rfl, hbits⟩
  have hlen := congrArg length hbits
  rw [byteBits_length, length_append] at hlen
  have := gorillaBits_length hne
  omega

/-- A slice has at most `isize::MAX` elements. -/
abbrev F64Slice := { values : List F64 // values.length ≤ isizeMax }

theorem F64Slice.length_add_lt (values : F64Slice) : values.1.length + 70 < 2 ^ 64 := by
  have hle : values.1.length ≤ 2 ^ 63 - 1 := values.2
  omega

theorem count_add_lt_of_decodes (hpos : count ≠ 0)
    (h : decodeGorillaValues buf count = .ok values) : count + 70 < 2 ^ 64 := by
  by_contra hlarge
  have hmin : minimumGorillaEncodedLenBytes count =
      .error (invalidData "gorilla minimum encoded size overflows") := by
    rw [minimumGorillaEncodedLenBytes, if_neg hpos, if_neg (by omega)]
  rw [decodeGorillaValues, if_neg hpos, hmin] at h
  cases h

/-- Every list of doubles is read back, and nothing but its encoding is read as a list. -/
theorem gorilla_decodes_exactly_encodings :
    (∀ values : F64Slice, values.1 ≠ [] →
      ∃ buf, encodeGorillaValues values = .ok buf ∧
        decodeGorillaValues buf values.1.length = .ok values.1) ∧
    ∀ (buf : Bytes) (count : Nat) (values : List F64), 1 ≤ count →
      decodeGorillaValues buf count = .ok values →
      values.length = count ∧ encodeGorillaValues values = .ok buf := by
  constructor
  · intro values hne
    obtain ⟨buf, hbuf, -⟩ := encodeGorillaValues_bits hne
    have hpos : values.1.length ≠ 0 := fun h => hne (length_eq_zero_iff.mp h)
    exact ⟨buf, hbuf, (decodeGorillaValues_ok hpos values.length_add_lt).mpr ⟨rfl, hbuf⟩⟩
  · intro buf count values hcount h
    have hpos : count ≠ 0 := one_le_iff_ne_zero.mp hcount
    exact (decodeGorillaValues_ok hpos (count_add_lt_of_decodes hpos h)).mp h

theorem gorilla_decodes_exactly_encodings_three :
    ∃ buf, decodeGorillaValues buf 3 = .ok [⟨1⟩, ⟨1⟩, ⟨6⟩] ∧
      encodeGorillaValues [⟨1⟩, ⟨1⟩, ⟨6⟩] = .ok buf := by
  obtain ⟨buf, -, hdecode⟩ :=
    gorilla_decodes_exactly_encodings.1 ⟨[⟨1⟩, ⟨1⟩, ⟨6⟩], by decide⟩ (by decide)
  exact ⟨buf, hdecode, (gorilla_decodes_exactly_encodings.2 buf 3 _ (by decide) hdecode).2⟩

/-- The bits the estimator counts for one value, and its loop variables after it. -/
def gorillaValueBits (s : GorillaState) (next : UInt64) : Nat × GorillaState :=
  let xor := s.prev ^^^ next
  if xor = 0 then (1, { s with prev := next })
  else
    let leading := leadingZeros xor
    let trailing := trailingZeros xor
    if s.hasWindow ∧ leading ≥ s.prevLeading ∧ trailing ≥ s.prevTrailing then
      (2 + (64 - s.prevLeading - s.prevTrailing), { s with prev := next })
    else
      let storeLeading := min leading gorillaLeadingMax
      let significant := 64 - storeLeading - trailing
      (2 + gorillaLeadingBits + gorillaSigBits + significant, ⟨next, storeLeading, trailing, true⟩)

def gorillaBitsLoop : Nat → GorillaState → List F64 → Except IoError Nat
  | bits, _, [] => .ok bits
  | bits, s, value :: values => do
    let encoded := gorillaValueBits s value.bits
    require (bits + encoded.1 < 2 ^ 64) (invalidData "gorilla encoded size overflows")
    gorillaBitsLoop (bits + encoded.1) encoded.2 values

def gorillaEncodedLenBytes : List F64 → Except IoError Nat
  | [] => .error (invalidInput "values must be non-empty")
  | first :: values => do
    let bits ← gorillaBitsLoop 64 ⟨first.bits, 0, 0, false⟩ values
    require (bits + 7 < 2 ^ 64) (invalidData "gorilla size overflows")
    return (bits + 7) / 8

theorem gorillaValueBits_eq (next : UInt64) :
    gorillaValueBits s next = ((s.step next).1.length, (s.step next).2) := by
  unfold gorillaValueBits GorillaState.step
  dsimp only
  split
  · rfl
  split
  · rw [length_cons, length_cons, bitsBE_length]
    congr 1
    omega
  rw [length_cons, length_cons, length_append, length_append,
    bitsBE_length, bitsBE_length, bitsBE_length]
  congr 1
  omega

theorem gorillaBitsLoop_eq {bits : Nat} (hbits : bits < 2 ^ 64) (s : GorillaState)
    (values : List F64) :
    gorillaBitsLoop bits s values =
      if bits + (s.stream values).length < 2 ^ 64 then .ok (bits + (s.stream values).length)
      else .error (invalidData "gorilla encoded size overflows") := by
  induction values generalizing bits s with
  | nil =>
    rw [GorillaState.stream, length_nil, add_zero, if_pos hbits]
    rfl
  | cons value values ih =>
    rw [gorillaBitsLoop, gorillaValueBits_eq, GorillaState.stream, length_append, ← add_assoc]
    by_cases hfits : bits + (s.step value.bits).1.length < 2 ^ 64
    · simp only [require_pos hfits]
      exact ih hfits (s.step value.bits).2
    · rw [if_neg (by omega)]
      simp only [require, if_neg hfits]
      rfl

theorem length_of_byteBits {out : Bytes} {bits : List Bool}
    (h : byteBits out = bits ++ BitWriter.padding bits) : out.length = (bits.length + 7) / 8 := by
  have hlen := congrArg length h
  rw [byteBits_length, length_append, BitWriter.padding, length_replicate] at hlen
  omega

theorem gorillaEncodedLenBytes_eq (hbits : (gorillaBits values).length + 7 < 2 ^ 64) :
    gorillaEncodedLenBytes values = (encodeGorillaValues values).map length := by
  cases values with
  | nil => rfl
  | cons first values =>
    obtain ⟨out, hout, hpadded⟩ := encodeGorillaValues_bits (cons_ne_nil first values)
    rw [hout, Except.map, length_of_byteBits hpadded]
    rw [gorillaBits, length_append, bitsBE_length] at hbits ⊢
    rw [gorillaEncodedLenBytes, gorillaBitsLoop_eq (by decide), if_pos (by omega)]
    exact congrArg (· >>= fun _ => _) (require_pos hbits)

theorem BitWriter.lenBytes_eq (w : BitWriter) : w.lenBytes = w.snapshot.length := by
  unfold lenBytes snapshot
  split
  · rw [length_append, length_singleton]
  · rfl

theorem GorillaEncoder.snapshot_decodes {encoder : GorillaEncoder}
    (hcount : values.length + 70 < 2 ^ 64)
    (h : values.foldlM push new = .ok encoder) :
    decodeGorillaValues encoder.snapshot values.length = .ok values := by
  by_cases hne : values = []
  · subst hne
    obtain rfl := Except.ok.inj h
    rfl
  have hpos : values.length ≠ 0 := fun h => hne (length_eq_zero_iff.mp h)
  refine (decodeGorillaValues_ok hpos hcount).mpr ⟨rfl, ?_⟩
  rw [encodeGorillaValues, if_neg hne, h]
  rfl

theorem GorillaEncoder.push_succeeds (values : List F64) :
    ∃ encoder, values.foldlM push new = .ok encoder := by
  cases values with
  | nil => exact ⟨_, rfl⟩
  | cons value values =>
    obtain ⟨encoder, hpush, -⟩ := push_values value values
    exact ⟨encoder, hpush⟩

theorem minimumGorillaEncodedLenBytes_le {out : Bytes}
    (hcount : values.length + 70 < 2 ^ 64) (h : encodeGorillaValues values = .ok out) :
    ∃ minimum, minimumGorillaEncodedLenBytes values.length = .ok minimum ∧
      minimum ≤ out.length := by
  have hne : values ≠ [] := by
    rintro rfl
    cases h
  have hpos : values.length ≠ 0 := fun h => hne (length_eq_zero_iff.mp h)
  obtain ⟨hle, -⟩ := (decodeGorillaValues_eq_ok hpos hcount).mp
    ((decodeGorillaValues_ok hpos hcount).mpr ⟨rfl, h⟩)
  refine ⟨_, ?_, hle⟩
  rw [minimumGorillaEncodedLenBytes, if_neg hpos, if_pos (by omega)]

def turnedBits : Nat → UInt64 → List F64
  | 0, _ => []
  | n + 1, bits => ⟨~~~bits⟩ :: turnedBits n (~~~bits)

theorem length_turnedBits (n : Nat) (bits : UInt64) : (turnedBits n bits).length = n := by
  induction n generalizing bits with
  | zero => rfl
  | succ n ih => rw [turnedBits, length_cons, ih]

theorem gorillaValueBits_turned (bits : UInt64) (hasWindow : Bool) :
    gorillaValueBits ⟨bits, 0, 0, hasWindow⟩ (~~~bits) =
      (if hasWindow then 66 else 77, ⟨~~~bits, 0, 0, true⟩) := by
  have hxor : bits ^^^ ~~~bits = -1 := by
    rw [UInt64.xor_not, UInt64.xor_self]
    rfl
  have hleading : leadingZeros (-1) = 0 := by decide
  have htrailing : trailingZeros (-1) = 0 := by decide
  rw [gorillaValueBits]
  simp only [hxor, hleading, htrailing]
  cases hasWindow <;> rfl

theorem length_stream_turnedBits (n : Nat) (bits : UInt64) (hasWindow : Bool) :
    (GorillaState.stream ⟨bits, 0, 0, hasWindow⟩ (turnedBits (n + 1) bits)).length =
      (if hasWindow then 66 else 77) + 66 * n := by
  have hstep := gorillaValueBits_turned bits hasWindow
  rw [gorillaValueBits_eq, Prod.mk.injEq] at hstep
  rw [turnedBits, GorillaState.stream, length_append, hstep.1, hstep.2]
  cases n with
  | zero => rfl
  | succ n =>
    rw [length_stream_turnedBits n, if_pos rfl]
    omega

/-- The estimator's count of bits is a `u64`, so that it refuses a list whose encoding is a byte
vector of an admitted length. -/
theorem gorillaEncodedLenBytes_overflows :
    ∃ (values : List F64) (out : Bytes), 8 * values.length ≤ isizeMax ∧ out.length ≤ isizeMax ∧
      encodeGorillaValues values = .ok out ∧
      gorillaEncodedLenBytes values =
        .error (invalidData "gorilla encoded size overflows") := by
  obtain ⟨n, hn⟩ : ∃ n : Nat, n = 2 ^ 58 := ⟨_, rfl⟩
  have hmax : isizeMax = 2 ^ 63 - 1 := rfl
  have hstream := length_stream_turnedBits n 0 false
  rw [if_neg Bool.false_ne_true] at hstream
  obtain ⟨out, hout, hpadded⟩ :=
    encodeGorillaValues_bits (cons_ne_nil ⟨0⟩ (turnedBits (n + 1) 0))
  have hbytes := length_of_byteBits hpadded
  rw [gorillaBits, length_append, bitsBE_length, hstream] at hbytes
  refine ⟨⟨0⟩ :: turnedBits (n + 1) 0, out, ?_, ?_, hout, ?_⟩
  · rw [length_cons, length_turnedBits]
    omega
  · omega
  · rw [gorillaEncodedLenBytes, gorillaBitsLoop_eq (by decide), hstream, if_neg (by omega)]
    rfl

/-- The estimate is the length of the encoding whenever the bits can be counted, and after every
part of the list the snapshot decodes to that part. -/
theorem gorilla_size_predicted (values : F64Slice) :
    ((gorillaBits values).length + 7 < 2 ^ 64 →
      gorillaEncodedLenBytes values = (encodeGorillaValues values).map List.length) ∧
    (∀ front : List F64, front <+: values.1 →
      ∃ encoder, front.foldlM GorillaEncoder.push GorillaEncoder.new = .ok encoder ∧
        encoder.lenBytes = encoder.snapshot.length ∧
        decodeGorillaValues encoder.snapshot front.length = .ok front) ∧
    ∀ out, encodeGorillaValues values = .ok out →
      ∃ minimum, minimumGorillaEncodedLenBytes values.1.length = .ok minimum ∧
        minimum ≤ out.length := by
  refine ⟨gorillaEncodedLenBytes_eq, ?_, ?_⟩
  · intro front hfront
    have hcount : front.length + 70 < 2 ^ 64 :=
      (Nat.add_le_add_right hfront.length_le 70).trans_lt values.length_add_lt
    obtain ⟨encoder, hencoder⟩ := push_succeeds front
    exact ⟨encoder, hencoder, encoder.writer.lenBytes_eq,
      snapshot_decodes hcount hencoder⟩
  · intro out hout
    exact minimumGorillaEncodedLenBytes_le values.length_add_lt hout

theorem gorilla_size_predicted_two :
    gorillaEncodedLenBytes [⟨0⟩, ⟨6⟩] = (encodeGorillaValues [⟨0⟩, ⟨6⟩]).map List.length ∧
      ∃ encoder, [⟨0⟩].foldlM GorillaEncoder.push GorillaEncoder.new = .ok encoder ∧
        decodeGorillaValues encoder.snapshot 1 = .ok [⟨0⟩] := by
  obtain ⟨hlength, hfront, -⟩ := gorilla_size_predicted ⟨[⟨0⟩, ⟨6⟩], by decide⟩
  obtain ⟨encoder, hencoder, -, hdecode⟩ := hfront [⟨0⟩] ⟨[⟨6⟩], rfl⟩
  exact ⟨hlength (by decide), encoder, hencoder, hdecode⟩

end Chronoxide
