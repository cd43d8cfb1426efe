import Chronoxide.Encoding.Elf

/-! The Chimp128 codec for doubles in its baseline layout (`encoding/chimp.rs`). A value is compared
with the one before it or with one of the last 128, whose place in a ring is then written. -/

namespace Chronoxide
open Codec BitReader UInt64

def chimpLeadingSteps : List Nat := [0, 8, 12, 16, 18, 20, 22, 24]

/-- `for (idx, step) in CHIMP_LEADING_STEPS`, left at the first step above `lead`. -/
def leadingStepsLoop (lead : Nat) : List Nat → Nat → Nat → Nat
  | [], _, code => code
  | step :: steps, idx, code =>
    if step ≤ lead then leadingStepsLoop lead steps (idx + 1) idx else code

def encodeLeadingBaseline (lead : Nat) : Nat × Nat :=
  let code := leadingStepsLoop lead chimpLeadingSteps 0 0
  (code, chimpLeadingSteps.getD code 0)

def decodeLeadingBaseline (code : Nat) : BitM Nat :=
  match chimpLeadingSteps[code]? with
  | some lead => return lead
  | none => Parser.fail (invalidData "chimp lead code invalid")

def encodeChimpXorBaseline (writer : BitWriter) (xor : UInt64) (prevLeadCode : Nat) :
    Except IoError (BitWriter × Nat) :=
  let trailing := trailingZeros xor
  let (leadCode, leadEncoded) := encodeLeadingBaseline (leadingZeros xor)
  if trailing > 6 then
    let writer := writer.writeBit false
    if xor = 0 then .ok (writer.writeBit false, prevLeadCode)
    else
      let writer := (writer.writeBit true).writeBits (UInt64.ofNat leadCode) 3
      let centerBits := 64 - leadEncoded - trailing
      if centerBits = 0 ∨ centerBits > 64 then
        .error (invalidData "chimp center bit count invalid")
      else
        let writer := writer.writeBits (UInt64.ofNat centerBits) 6
        .ok (writer.writeBits (xor >>> UInt64.ofNat trailing) centerBits, leadCode)
  else
    let writer := writer.writeBit true
    let sigBits := 64 - leadEncoded
    if sigBits = 0 ∨ sigBits > 64 then
      .error (invalidData "chimp significant bit count invalid")
    else if prevLeadCode = leadCode then
      .ok ((writer.writeBit false).writeBits xor sigBits, prevLeadCode)
    else
      let writer := (writer.writeBit true).writeBits (UInt64.ofNat leadCode) 3
      .ok (writer.writeBits xor sigBits, leadCode)

def decodeChimpXorBaseline (prevLeadCode : Nat) : BitM (UInt64 × Nat) := do
  let control ← readBit
  let control2 ← readBit
  if control = 0 then
    if control2 = 0 then return (0, prevLeadCode)
    else
      let leadCode := (← readBits 3).toNat
      let lead ← decodeLeadingBaseline leadCode
      let centerBits := (← readBits 6).toNat
      Parser.ensure (¬(centerBits = 0 ∨ centerBits > 64))
        (invalidData "chimp center bit count invalid")
      let trailing := 64 - lead - centerBits
      Parser.ensure (trailing ≤ 64) (invalidData "chimp trailing bit count invalid")
      let payload ← readBits centerBits
      return (payload <<< UInt64.ofNat trailing, leadCode)
  else
    let leadCode ← if control2 = 0 then pure prevLeadCode else (do return (← readBits 3).toNat)
    let lead ← decodeLeadingBaseline leadCode
    let sigBits := 64 - lead
    Parser.ensure (¬(sigBits = 0 ∨ sigBits > 64))
      (invalidData "chimp significant bit count invalid")
    let payload ← readBits sigBits
    return (payload, leadCode)

/-- The low bits of a word, as the index of an array of `2 ^ n` cells. -/
def lowIndex (n word : Nat) : Fin (2 ^ n) :=
  ⟨word &&& (2 ^ n - 1), by
    rw [Nat.and_two_pow_sub_one_eq_mod]
    exact Nat.mod_lt _ (Nat.two_pow_pos n)⟩

/-- `[u64; CHIMP128_RING_SIZE]` -/
abbrev ChimpRing := Fin (2 ^ 7) → UInt64

def invalidIndex : UInt32 := 4294967295

structure Chimp128BaselineEncoder where
  writer : BitWriter
  prev : Option UInt64
  prevLeadCode : Nat
  ring : ChimpRing
  table : Fin (2 ^ 14) → UInt32
  index : UInt32

namespace Chimp128BaselineEncoder

def new : Chimp128BaselineEncoder :=
  ⟨.new, none, 0, fun _ => 0, fun _ => invalidIndex, 0⟩

variable (self : Chimp128BaselineEncoder)

def insertValue (bits : UInt64) : Chimp128BaselineEncoder :=
  { self with
    ring := Function.update self.ring (lowIndex 7 self.index.toNat) bits
    table := Function.update self.table (lowIndex 14 bits.toNat) self.index
    index := self.index + 1 }

def findCandidate (bits : UInt64) : Option (Fin (2 ^ 7) × UInt64) :=
  let candIndex := self.table (lowIndex 14 bits.toNat)
  if candIndex = invalidIndex then none
  else if self.index - candIndex > 128 then none
  else
    let slot := lowIndex 7 candIndex.toNat
    some (slot, self.ring slot)

/-- The flag, the slot if one is used, and the value that the next one is compared with. -/
def writePrev (prev bits : UInt64) : BitWriter × UInt64 :=
  let cached := (self.findCandidate bits).filter
    fun (_, candidate) => trailingZeros (candidate ^^^ bits) > 7 + 6
  let writer := self.writer.writeBit cached.isSome
  match cached with
  | some (slot, candidate) => (writer.writeBits (UInt64.ofNat slot) 7, candidate)
  | none => (writer, prev)

def push (value : F64) : Except IoError Chimp128BaselineEncoder :=
  let bits := value.bits
  match self.prev with
  | none =>
    let writer := self.writer.writeBits bits 64
    .ok ({ self with writer, prev := some bits }.insertValue bits)
  | some prev => do
    let (writer, prevBits) := self.writePrev prev bits
    let (writer, prevLeadCode) ←
      encodeChimpXorBaseline writer (prevBits ^^^ bits) self.prevLeadCode
    return { self with writer, prev := some bits, prevLeadCode }.insertValue bits

end Chimp128BaselineEncoder

def encodeChimp128BaselineValues (values : List F64) : Except IoError Bytes :=
  if values = [] then .error (invalidInput "values must be non-empty")
  else do
    let encoder ← values.foldlM Chimp128BaselineEncoder.push .new
    return encoder.writer.finish

structure Chimp128State where
  prev : UInt64
  prevLeadCode : Nat
  ring : ChimpRing
  index : UInt32

namespace Chimp128State

def readPrev (s : Chimp128State) : BitM UInt64 := do
  let useCached ← readBit
  if useCached = 1 then
    let slot := (← readBits 7).toNat
    if h : slot < 2 ^ 7 then return s.ring ⟨slot, h⟩
    else Parser.fail (invalidData "chimp128 cache slot out of range")
  else return s.prev

def next (s : Chimp128State) : BitM Chimp128State := do
  let prevBits ← s.readPrev
  let (xor, prevLeadCode) ← decodeChimpXorBaseline s.prevLeadCode
  let next := prevBits ^^^ xor
  return ⟨next, prevLeadCode, Function.update s.ring (lowIndex 7 s.index.toNat) next, s.index + 1⟩

def readValues : Nat → Chimp128State → BitM (List F64)
  | 0, _ => return []
  | n + 1, s => do
    let s ← s.next
    let values ← readValues n s
    return ⟨s.prev⟩ :: values

end Chimp128State

def decodeChimp128BaselineStream (count : Nat) : BitM (List F64) := do
  let first ← readBits 64
  let values ← Chimp128State.readValues (count - 1)
    ⟨first, 0, Function.update (fun _ => 0) 0 first, 1⟩
  return ⟨first⟩ :: values

def decodeChimp128BaselineValues (buf : Bytes) (count : Nat) : Except IoError (List F64) :=
  if count = 0 then .ok []
  else do
    let (values, _) ← decodeChimp128BaselineStream count (BitReader.new buf)
    return values

theorem leadingBaseline_codes {lead : Nat} (h : lead < 64) :
    (encodeLeadingBaseline lead).1 < 2 ^ 3 ∧ (encodeLeadingBaseline lead).2 ≤ min lead 24 ∧
      chimpLeadingSteps[(encodeLeadingBaseline lead).1]? = some (encodeLeadingBaseline lead).2 := by
  revert lead
  decide

theorem encodeChimpXorBaseline_carries (w : BitWriter) (xor : UInt64) (prevLeadCode : Nat) :
    ∃ w' code, encodeChimpXorBaseline w xor prevLeadCode = .ok (w', code) ∧
      Carries w w' (decodeChimpXorBaseline prevLeadCode) (xor, code) := by
  rcases eq_or_ne xor 0 with rfl | hxor
  · exact ⟨_, _, rfl, (carries_bit false).seq ((carries_bit false).seq (.ret _))⟩
  have hbound := leadingZeros_add_trailingZeros hxor
  unfold encodeChimpXorBaseline
  obtain ⟨hcode, hlead, hstep⟩ := leadingBaseline_codes (show leadingZeros xor < 64 by omega)
  generalize encodeLeadingBaseline (leadingZeros xor) = lead at *
  obtain ⟨leadCode, lead⟩ := lead
  dsimp only at *
  have hword : (ofNat leadCode).toNat = leadCode :=
    toNat_ofNat_of_lt' (hcode.trans (by decide))
  have hfield {w : BitWriter} :
      Carries w (w.writeBits (ofNat leadCode) 3) (readBits 3) (ofNat leadCode) :=
    carries_bits (by decide) (by rwa [hword])
  have hdecode {w : BitWriter} : Carries w w (decodeLeadingBaseline leadCode) lead := by
    rw [decodeLeadingBaseline, hstep]
    exact .ret lead
  split
  · obtain ⟨center, hcenter⟩ : ∃ center, center = 64 - lead - trailingZeros xor := ⟨_, rfl⟩
    obtain ⟨hlt, hback⟩ := shiftRight_back (show 0 < center by omega) (by omega)
      ((le_leadingZeros_iff hxor (by omega)).mp (hlead.trans (min_le_left _ _)))
      ((le_trailingZeros_iff (by omega)).mp le_rfl)
    have hcenterWord : (ofNat center).toNat = center :=
      toNat_ofNat_of_lt' (lt_of_le_of_lt (show center ≤ 64 by omega) (by decide))
    have hsix : (ofNat center).toNat < 2 ^ 6 := by omega
    rw [← hcenter, if_neg (by omega)]
    refine ⟨_, _, rfl, (carries_bit false).seq ((carries_bit true).seq (hfield.seq ?_))⟩
    rw [hword]
    refine hdecode.seq ((carries_bits (by decide) hsix).seq ?_)
    rw [hcenterWord]
    refine .ensure (by omega) (.ensure (by omega) ((carries_bits (by omega) hlt).seq ?_))
    rw [show 64 - lead - center = trailingZeros xor by omega, hback]
    exact .ret _
  have hload {w : BitWriter} : Carries w (w.writeBits xor (64 - lead))
      (decodeLeadingBaseline leadCode >>= fun lead => do
        Parser.ensure (¬(64 - lead = 0 ∨ 64 - lead > 64))
          (invalidData "chimp significant bit count invalid")
        let payload ← readBits (64 - lead)
        return (payload, leadCode)) (xor, leadCode) :=
    hdecode.seq (.ensure (by omega) ((carries_bits (by omega) ((le_leadingZeros_iff hxor
      (by omega)).mp (hlead.trans (min_le_left _ _)))).seq (.ret _)))
  rw [if_neg (by omega)]
  split
  · rename_i hsame
    subst hsame
    exact ⟨_, _, rfl, (carries_bit true).seq ((carries_bit false).seq
      ((Carries.ret _).seq hload))⟩
  refine ⟨_, _, rfl, (carries_bit true).seq ((carries_bit true).seq
    (Carries.seq (hfield.seq ?_) hload))⟩
  rw [hword]
  exact .ret _

namespace Chimp128BaselineEncoder

variable {self : Chimp128BaselineEncoder} {prev : UInt64}

def decoder (self : Chimp128BaselineEncoder) (prev : UInt64) : Chimp128State :=
  ⟨prev, self.prevLeadCode, self.ring, self.index⟩

theorem findCandidate_ring {bits candidate : UInt64} {slot : Fin (2 ^ 7)}
    (h : self.findCandidate bits = some (slot, candidate)) : self.ring slot = candidate := by
  unfold findCandidate at h
  grind

/-- Both sides keep the same ring, so a slot names the same value on both. -/
theorem writePrev_carries (prev bits : UInt64) :
    Carries self.writer (self.writePrev prev bits).1 (self.decoder prev).readPrev
      (self.writePrev prev bits).2 := by
  unfold writePrev
  cases hcached : (self.findCandidate bits).filter _ with
  | none => exact (carries_bit false).seq (.ret prev)
  | some cached =>
    obtain ⟨slot, candidate⟩ := cached
    have hring := findCandidate_ring (Option.filter_eq_some_iff.mp hcached).1
    have hword : (ofNat slot).toNat = slot :=
      toNat_ofNat_of_lt' (slot.isLt.trans (by decide))
    refine (carries_bit true).seq ((carries_bits (by decide) (hword ▸ slot.isLt)).seq ?_)
    rw [hword, dif_pos slot.isLt, ← hring]
    exact .ret _

theorem push_carries (hprev : self.prev = some prev) (value : F64) :
    ∃ next, self.push value = .ok next ∧ next.prev = some value.bits ∧
      Carries self.writer next.writer (self.decoder prev).next (next.decoder value.bits) := by
  obtain ⟨w, code, hencode, hdecode⟩ := encodeChimpXorBaseline_carries
    (self.writePrev prev value.bits).1 ((self.writePrev prev value.bits).2 ^^^ value.bits)
    self.prevLeadCode
  unfold push
  rw [hprev]
  dsimp only
  rw [hencode]
  refine ⟨_, rfl, rfl, (writePrev_carries prev value.bits).seq (hdecode.seq ?_)⟩
  dsimp only
  rw [GorillaState.xor_xor_self]
  exact .ret _

theorem pushes_carry (hprev : self.prev = some prev) (values : List F64) :
    ∃ last, values.foldlM push self = .ok last ∧ Carries self.writer last.writer
      ((self.decoder prev).readValues values.length) values := by
  induction values generalizing self prev with
  | nil => exact ⟨self, rfl, .ret []⟩
  | cons value values ih =>
    obtain ⟨next, hpush, hnext, hread⟩ := push_carries hprev value
    obtain ⟨last, hpushes, hreads⟩ := ih hnext
    refine ⟨last, ?_, hread.seq (hreads.seq (.ret _))⟩
    rw [List.foldlM_cons, hpush]
    exact hpushes

theorem push_first (value : F64) :
    ∃ next, new.push value = .ok next ∧ next.prev = some value.bits ∧
      next.writer = BitWriter.new.writeBits value.bits 64 ∧ next.decoder value.bits =
        ⟨value.bits, 0, Function.update (fun _ => 0) 0 value.bits, 1⟩ := by
  have hslot : lowIndex 7 new.index.toNat = 0 := by decide
  refine ⟨_, rfl, rfl, rfl, ?_⟩
  rw [insertValue, hslot]
  rfl

/-- The decoder reads what the encoder was given from the bytes it ends with. -/
theorem exists_pushes {values : List F64} (hne : values ≠ []) :
    ∃ last, values.foldlM push new = .ok last ∧
      decodeChimp128BaselineValues last.writer.finish values.length = .ok values := by
  obtain ⟨value, values, rfl⟩ := List.exists_cons_of_ne_nil hne
  obtain ⟨first, hpush, hprev, hwriter, hdecoder⟩ := push_first value
  obtain ⟨last, hpushes, hreads⟩ := pushes_carry hprev values
  have hstream : Carries .new last.writer (decodeChimp128BaselineStream (values.length + 1))
      (value :: values) := by
    rw [hwriter, hdecoder] at hreads
    exact (carries_bits (le_refl 64) value.bits.toNat_lt).seq (hreads.seq (.ret _))
  obtain ⟨reader, hdecode⟩ := hstream.finish
  refine ⟨last, except_bind_ok.mpr ⟨first, hpush, hpushes⟩, ?_⟩
  rw [decodeChimp128BaselineValues, if_neg (List.length_eq_zero_iff.not.mpr hne)]
  exact except_bind_ok.mpr ⟨_, hdecode, rfl⟩

end Chimp128BaselineEncoder

theorem encodeChimp128BaselineValues_of_pushes {values : List F64} {last : Chimp128BaselineEncoder}
    (hne : values ≠ []) (h : values.foldlM Chimp128BaselineEncoder.push .new = .ok last) :
    encodeChimp128BaselineValues values = .ok last.writer.finish := by
  rw [encodeChimp128BaselineValues, if_neg hne]
  exact except_bind_ok.mpr ⟨last, h, rfl⟩

/-- Every non-empty list of doubles is encoded, and decoded to the same bit patterns. -/
theorem chimp128Baseline_lossless (values : List F64) (hne : values ≠ []) :
    ∃ bytes, encodeChimp128BaselineValues values = .ok bytes ∧
      decodeChimp128BaselineValues bytes values.length = .ok values := by
  obtain ⟨last, hpushes, hdecode⟩ := Chimp128BaselineEncoder.exists_pushes hne
  exact ⟨last.writer.finish, encodeChimp128BaselineValues_of_pushes hne hpushes, hdecode⟩

/-- All four codes: a repeated value (00), one that differs in high bits from a value of the ring
(01), values outside the ring with a new and with the last number of leading zeros (11, 10), and the
ring again. -/
theorem chimp128Baseline_lossless_codes :
    let values : List F64 := [⟨0x3FF0000000000000⟩, ⟨0x3FF0000000000000⟩, ⟨0x3FF8000000000000⟩,
      ⟨1⟩, ⟨0x3FF8000000000003⟩, ⟨0x3FF0000000000000⟩]
    let bytes : Bytes := [63, 240, 0, 0, 0, 0, 0, 0, 128, 32, 84, 13, 131, 255, 128, 0, 0, 0, 0, 0,
      20, 127, 240, 0, 0, 0, 0, 0, 5, 4, 160, 96]
    encodeChimp128BaselineValues values = .ok bytes ∧
      decodeChimp128BaselineValues bytes 6 = .ok values := by
  intro values bytes
  have hencode : encodeChimp128BaselineValues values = .ok bytes := by decide +kernel
  obtain ⟨encoded, hok, hdecode⟩ := chimp128Baseline_lossless values (List.cons_ne_nil _ _)
  obtain rfl := Except.ok.inj (hok.symm.trans hencode)
  exact ⟨hencode, hdecode⟩

end Chronoxide
