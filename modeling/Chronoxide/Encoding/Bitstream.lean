import Chronoxide.Encoding.Io

/-! The bit writer and bit reader of `encoding/bitstream.rs`. Both keep a few bits left-aligned in a
machine word. -/

namespace Chronoxide
open Codec List

/-- `bitBuf` is a `u64` whose top `bitLen` bits are not yet in `buf`. -/
structure BitWriter where
  buf : Bytes
  bitBuf : Nat
  bitLen : Nat
  deriving DecidableEq, Repr

variable {bs : List Bool} {n : Nat}

namespace BitWriter

def new : BitWriter := ⟨[], 0, 0⟩

def flushRound (w : BitWriter) : BitWriter where
  buf := w.buf ++ [UInt8.ofNat (w.bitBuf >>> 56)]
  bitBuf := (w.bitBuf <<< 8) % 2 ^ 64
  bitLen := w.bitLen - 8

def flushRounds : Nat → BitWriter → BitWriter
  | 0, w => w
  | n + 1, w => flushRounds n w.flushRound

-- `while self.bit_len >= 8`: every round takes eight bits away.
def flushFullBytes (w : BitWriter) : BitWriter := flushRounds (w.bitLen / 8) w

-- `while remaining > 0`: every round writes at least one bit.
def writeLoop : Nat → Nat → Nat → BitWriter → BitWriter
  | 0, _, _, w => w
  | fuel + 1, value, remaining, w =>
    if remaining = 0 then w
    else
      let available := 64 - w.bitLen
      if remaining ≤ available then
        let shift := available - remaining
        writeLoop fuel value 0 (flushFullBytes
          { w with bitBuf := w.bitBuf ||| (value <<< shift) % 2 ^ 64,
                   bitLen := w.bitLen + remaining })
      else
        let shift := remaining - available
        writeLoop fuel (if shift = 0 then 0 else value &&& ((1 <<< shift) - 1)) shift
          (flushFullBytes { w with bitBuf := w.bitBuf ||| (value >>> shift), bitLen := 64 })

variable (w : BitWriter)

def writeBits (value : UInt64) (bits : Nat) : BitWriter :=
  if bits = 0 then w
  else if bits = 64 ∧ w.bitLen = 0 then { w with buf := w.buf ++ beBytes 8 value.toNat }
  else
    let value := if bits = 64 then value.toNat else value.toNat &&& ((1 <<< bits) - 1)
    if w.bitLen = 0 ∧ bits % 8 = 0 then
      { w with buf := w.buf ++ (beBytes 8 value).drop (8 - bits / 8) }
    else writeLoop bits value bits w

def writeBit (bit : Bool) : BitWriter := w.writeBits (if bit then 1 else 0) 1

def finish : Bytes :=
  if w.bitLen > 0 then w.buf ++ [UInt8.ofNat (w.bitBuf >>> 56)] else w.buf

def snapshot : Bytes :=
  if w.bitLen > 0 then w.buf ++ [UInt8.ofNat (w.bitBuf >>> 56)] else w.buf

def lenBytes : Nat := w.buf.length + if w.bitLen > 0 then 1 else 0

def Denotes (bs : List Bool) : Prop :=
  ∃ t, w.bitLen ≤ 64 ∧ t < 2 ^ w.bitLen ∧ w.bitBuf = t * 2 ^ (64 - w.bitLen) ∧
    bs = byteBits w.buf ++ bitsBE w.bitLen t

/-- After a call fewer than eight of the bits are pending. -/
structure Wrote (w : BitWriter) (bs : List Bool) : Prop where
  denotes : w.Denotes bs
  pending : w.bitLen < 8

theorem new_wrote : new.Wrote [] := ⟨⟨0, by decide, by decide, rfl, rfl⟩, by decide⟩

variable {w : BitWriter}

theorem flushRound_denotes (h : w.Denotes bs) (hlen : 8 ≤ w.bitLen) : w.flushRound.Denotes bs := by
  obtain ⟨t, hle, ht, hbuf, rfl⟩ := h
  have hbyte : (t * 2 ^ (64 - w.bitLen)) >>> 56 = t / 2 ^ (w.bitLen - 8) := aligned_top hlen hle
  refine ⟨t % 2 ^ (w.bitLen - 8), ?_, Nat.mod_lt _ (Nat.two_pow_pos _), ?_, ?_⟩
  · simp only [flushRound]; omega
  · simp only [flushRound]
    rw [hbuf, aligned_drop hlen hle]
  have hsum : w.bitLen = 8 + (w.bitLen - 8) := by omega
  simp only [flushRound]
  rw [hbuf, hbyte, byteBits_append, byteBits_cons, byteBits_nil, append_nil,
    UInt8.toNat_ofNat_of_lt' (top_lt hlen ht), bitsBE_mod, append_assoc, ← bitsBE_add, ← hsum]

theorem flushRounds_denotes (h : w.Denotes bs) (hlen : 8 * n ≤ w.bitLen) :
    (flushRounds n w).Denotes bs ∧ (flushRounds n w).bitLen = w.bitLen - 8 * n := by
  induction n generalizing w with
  | zero => exact ⟨h, rfl⟩
  | succ n ih =>
    have hlen' : 8 * n ≤ w.flushRound.bitLen := by simp only [flushRound]; omega
    obtain ⟨hd, hl⟩ := ih (flushRound_denotes h (by omega)) hlen'
    refine ⟨hd, ?_⟩
    rw [flushRounds, hl]
    simp only [flushRound]
    omega

theorem flushFullBytes_wrote (h : w.Denotes bs) : w.flushFullBytes.Wrote bs := by
  obtain ⟨hd, hl⟩ := flushRounds_denotes (n := w.bitLen / 8) h (by omega)
  refine ⟨hd, ?_⟩
  rw [flushFullBytes, hl]
  omega

theorem append_denotes {n v : Nat} (h : w.Denotes bs) (hn : n ≤ 64 - w.bitLen) (hv : v < 2 ^ n) :
    BitWriter.Denotes
      { w with bitBuf := w.bitBuf ||| (v <<< (64 - w.bitLen - n)) % 2 ^ 64,
               bitLen := w.bitLen + n } (bs ++ bitsBE n v) := by
  obtain ⟨t, hle, ht, hbuf, rfl⟩ := h
  refine ⟨t * 2 ^ n + v, by dsimp only; omega, append_lt ht hv, ?_, ?_⟩
  · dsimp only
    rw [hbuf, aligned_append (by omega) hv]
  · rw [append_assoc, bitsBE_append hv]

theorem and_mask (x n : Nat) : x &&& ((1 <<< n) - 1) = x % 2 ^ n := by
  rw [Nat.one_shiftLeft, Nat.and_two_pow_sub_one_eq_mod]

theorem writeLoop_zero (fuel v : Nat) (w : BitWriter) : writeLoop fuel v 0 w = w := by
  cases fuel <;> rfl

theorem writeLoop_wrote {fuel n v : Nat} (h : w.Wrote bs) (hn : n ≤ fuel) (hv : v < 2 ^ n) :
    (writeLoop fuel v n w).Wrote (bs ++ bitsBE n v) := by
  induction fuel generalizing n v w bs with
  | zero =>
    obtain rfl : n = 0 := by omega
    simpa [writeLoop, bitsBE] using h
  | succ fuel ih =>
    rw [writeLoop]
    rcases Nat.eq_zero_or_pos n with rfl | hpos
    · simpa [bitsBE] using h
    obtain ⟨h, hlen⟩ := h
    rw [if_neg (by omega)]
    dsimp only
    split
    · rename_i hfit
      rw [writeLoop_zero]
      exact flushFullBytes_wrote (append_denotes h hfit hv)
    rename_i hover
    have hsum : n = (64 - w.bitLen) + (n - (64 - w.bitLen)) := by omega
    have htop : v >>> (n - (64 - w.bitLen)) < 2 ^ (64 - w.bitLen) := by
      rw [Nat.shiftRight_eq_div_pow]
      exact top_lt (by omega) hv
    have hword := append_denotes h le_rfl htop
    rw [Nat.sub_self, Nat.shiftLeft_zero, Nat.mod_eq_of_lt
      (lt_of_lt_of_le htop (Nat.pow_le_pow_right (by decide) (by omega))),
      show w.bitLen + (64 - w.bitLen) = 64 by omega] at hword
    rw [if_neg (by omega), and_mask, Nat.shiftRight_eq_div_pow]
    have := ih (n := n - (64 - w.bitLen)) (flushFullBytes_wrote hword) (by omega)
      (Nat.mod_lt v (Nat.two_pow_pos _))
    rw [append_assoc, bitsBE_mod, Nat.shiftRight_eq_div_pow, ← bitsBE_add, ← hsum] at this
    exact this

theorem bytes_wrote {bs bits : List Bool} {bytes : Bytes} (h : w.Wrote bs) (hlen : w.bitLen = 0)
    (hbits : byteBits bytes = bits) : Wrote { w with buf := w.buf ++ bytes } (bs ++ bits) := by
  obtain ⟨⟨t, hle, ht, hbuf, rfl⟩, hpending⟩ := h
  have hempty : bitsBE w.bitLen t = [] := by rw [hlen]; rfl
  refine ⟨⟨t, hle, ht, hbuf, ?_⟩, hpending⟩
  rw [hempty, byteBits_append, hbits, append_nil, append_nil]

theorem Wrote.bits (h : w.Wrote bs) (hn : n ≤ 64) (v : UInt64) :
    (w.writeBits v n).Wrote (bs ++ bitsBE n v.toNat) := by
  have hmask : (if n = 64 then v.toNat else v.toNat &&& ((1 <<< n) - 1)) = v.toNat % 2 ^ n := by
    split
    · rename_i h64
      rw [h64, Nat.mod_eq_of_lt v.toNat_lt]
    · exact and_mask v.toNat n
  rw [writeBits]
  split
  · rename_i h0
    simpa [h0, bitsBE] using h
  split
  · rename_i h64
    exact bytes_wrote h h64.2 (by rw [h64.1, byteBits_beBytes])
  rw [hmask]
  split
  · rename_i hbytes
    refine bytes_wrote h hbytes.1 ?_
    rw [beBytes_drop (by omega), byteBits_beBytes, Nat.mul_div_cancel' (by omega), bitsBE_mod]
  · rw [← bitsBE_mod n v.toNat]
    exact writeLoop_wrote h le_rfl (Nat.mod_lt _ (Nat.two_pow_pos _))

theorem Wrote.bit (h : w.Wrote bs) (b : Bool) : (w.writeBit b).Wrote (bs ++ [b]) := by
  have := h.bits (show 1 ≤ 64 by decide) (if b then 1 else 0)
  cases b <;> exact this

def padding (bs : List Bool) : List Bool := List.replicate ((8 - bs.length % 8) % 8) false

theorem Wrote.finish (h : w.Wrote bs) : byteBits w.finish = bs ++ padding bs := by
  obtain ⟨⟨t, hle, ht, hbuf, rfl⟩, hlen⟩ := h
  have hpad : padding (byteBits w.buf ++ bitsBE w.bitLen t) =
      replicate ((8 - w.bitLen) % 8) false := by
    rw [padding, length_append, byteBits_length, bitsBE_length, Nat.mul_add_mod,
      Nat.mod_eq_of_lt hlen]
  rw [BitWriter.finish, hpad]
  split
  · rename_i hpos
    have hsplit : (2 : Nat) ^ (64 - w.bitLen) = 2 ^ (8 - w.bitLen) * 2 ^ 56 := by
      rw [← pow_add]; congr 1; omega
    have hbyte : w.bitBuf >>> 56 = t * 2 ^ (8 - w.bitLen) := by
      rw [hbuf, hsplit, Nat.shiftRight_eq_div_pow, ← mul_assoc,
        Nat.mul_div_cancel _ (Nat.two_pow_pos _)]
    have hlt : t * 2 ^ (8 - w.bitLen) < 2 ^ 8 := by
      calc t * 2 ^ (8 - w.bitLen) < 2 ^ w.bitLen * 2 ^ (8 - w.bitLen) :=
            Nat.mul_lt_mul_of_pos_right ht (Nat.two_pow_pos _)
        _ = 2 ^ 8 := by rw [← pow_add]; congr 1; omega
    have happ := bitsBE_append (m := w.bitLen) (x := t) (Nat.two_pow_pos (8 - w.bitLen))
    rw [Nat.add_zero, show w.bitLen + (8 - w.bitLen) = 8 by omega, bitsBE_zero] at happ
    rw [byteBits_append, byteBits_cons, byteBits_nil, append_nil, hbyte,
      UInt8.toNat_ofNat_of_lt' hlt, ← happ, Nat.mod_eq_of_lt (by omega), append_assoc]
  · rename_i hzero
    have h0 : w.bitLen = 0 := by omega
    rw [h0]
    simp [bitsBE]

end BitWriter

/-- `rest` is `buf[index..]`; `bitBuf` is a `u128` whose top `bitLen` bits are read next. -/
structure BitReader where
  rest : Bytes
  bitBuf : Nat
  bitLen : Nat
  deriving DecidableEq, Repr

abbrev BitM (α : Type) := Machine IoError BitReader α

namespace BitReader

def new (buf : Bytes) : BitReader := ⟨buf, 0, 0⟩

def bitstreamExhausted : IoError := unexpectedEof "bitstream exhausted"

-- `while self.bit_len < bits`
def fill (bits : Nat) : Bytes → Nat → Nat → Except IoError BitReader
  | [], bitBuf, bitLen => if bitLen < bits then .error bitstreamExhausted else .ok ⟨[], bitBuf, bitLen⟩
  | byte :: rest, bitBuf, bitLen =>
    if bitLen < bits then
      fill bits rest (bitBuf ||| (byte.toNat <<< (120 - bitLen)) % 2 ^ 128) (bitLen + 8)
    else .ok ⟨byte :: rest, bitBuf, bitLen⟩

def readBits (bits : Nat) : BitM UInt64 := fun r =>
  if bits = 0 then .ok (0, r)
  else if bits = 64 ∧ r.bitLen = 0 then
    if r.rest.length < 8 then .error bitstreamExhausted
    else .ok (UInt64.ofNat (leNat (r.rest.take 8).reverse), { r with rest := r.rest.drop 8 })
  else do
    let r ← fill bits r.rest r.bitBuf r.bitLen
    let value := (r.bitBuf >>> (128 - bits)) % 2 ^ 64
    let value := if bits < 64 then value &&& ((1 <<< bits) - 1) else value
    return (UInt64.ofNat value,
      { r with bitBuf := (r.bitBuf <<< bits) % 2 ^ 128, bitLen := r.bitLen - bits })

def readBit : BitM UInt64 := readBits 1

def requireCanonicalEnd : BitM Unit := fun r =>
  if r.rest ≠ [] then .error (invalidData "bitstream has trailing bytes")
  else if r.bitLen > 0 ∧ r.bitBuf >>> (128 - r.bitLen) ≠ 0 then
    .error (invalidData "bitstream has non-zero padding bits")
  else .ok ((), r)

/-- `n` pending bits with value `t`, then whole bytes. -/
def Holds (r : BitReader) (n t : Nat) : Prop :=
  r.bitLen = n ∧ t < 2 ^ n ∧ r.bitBuf = t * 2 ^ (128 - n)

def Denotes (r : BitReader) (bs : List Bool) : Prop :=
  ∃ n t, n < 8 ∧ r.Holds n t ∧ bs = bitsBE n t ++ byteBits r.rest

theorem new_denotes (buf : Bytes) : (new buf).Denotes (byteBits buf) :=
  ⟨0, 0, by decide, ⟨rfl, by decide, rfl⟩, rfl⟩

-- Fewer than eight bits are pending, so the bits fix how they are split.
variable {r r' : BitReader}

theorem Denotes.injective (h : r.Denotes bs) (h' : r'.Denotes bs) : r = r' := by
  obtain ⟨n, t, hn, ⟨hlen, ht, hbuf⟩, rfl⟩ := h
  obtain ⟨n', t', hn', ⟨hlen', ht', hbuf'⟩, heq⟩ := h'
  have hcount := congrArg length heq
  simp only [length_append, bitsBE_length, byteBits_length] at hcount
  obtain rfl : n = n' := by omega
  obtain ⟨hbits, hrest⟩ := append_inj heq (by simp)
  have htt : t = t' := bitsBE_injective ht ht' hbits
  cases r
  cases r'
  simp_all [byteBits_injective.eq_iff]

theorem fill_short {bits : Nat} {rest : Bytes} {buf len : Nat}
    (h : len + 8 * rest.length < bits) : fill bits rest buf len = .error bitstreamExhausted := by
  induction rest generalizing buf len with
  | nil => exact if_pos (by simpa using h)
  | cons b rest ih =>
    rw [length_cons] at h
    rw [fill, if_pos (by omega)]
    exact ih (by omega)

theorem fill_enough {bits n t : Nat} {rest : Bytes} (ht : t < 2 ^ n) (hbits : bits ≤ 64)
    (hn : n < bits + 8) (h : bits ≤ n + 8 * rest.length) :
    ∃ (r : BitReader) (n' t' : Nat), fill bits rest (t * 2 ^ (128 - n)) n = .ok r ∧
      r.Holds n' t' ∧ bits ≤ n' ∧ n' < bits + 8 ∧
      bitsBE n t ++ byteBits rest = bitsBE n' t' ++ byteBits r.rest := by
  induction rest generalizing n t with
  | nil =>
    have hle : bits ≤ n := by simpa using h
    exact ⟨_, n, t, if_neg (by omega), ⟨rfl, ht, rfl⟩, hle, hn, rfl⟩
  | cons b rest ih =>
    rw [fill]
    split
    · rename_i hlt
      have hb : b.toNat < 2 ^ 8 := b.toNat_lt
      have hbuf : t * 2 ^ (128 - n) ||| (b.toNat <<< (120 - n)) % 2 ^ 128 =
          (t * 2 ^ 8 + b.toNat) * 2 ^ (128 - (n + 8)) := by
        rw [show 120 - n = 128 - n - 8 by omega]
        exact aligned_append (by omega) hb
      obtain ⟨r, n', t', hfill, hr, hge, hle, hbits'⟩ :=
        ih (append_lt ht hb) (by omega) (by rw [length_cons] at h; omega)
      refine ⟨r, n', t', by rw [hbuf, hfill], hr, hge, hle, ?_⟩
      rw [← hbits', byteBits_cons, ← append_assoc, bitsBE_append hb]
    · exact ⟨_, n, t, rfl, ⟨rfl, ht, rfl⟩, by omega, hn, rfl⟩

variable {r : BitReader}

theorem readBits_short (hr : r.Denotes bs)
    (h : bs.length < n) : readBits n r = .error bitstreamExhausted := by
  obtain ⟨m, t, hm, ⟨hlen, ht, hbuf⟩, rfl⟩ := hr
  simp only [length_append, bitsBE_length, byteBits_length] at h
  rw [readBits, if_neg (by omega)]
  split
  · rename_i h64
    exact if_pos (by omega)
  · rw [fill_short (by omega)]
    rfl

theorem readBits_enough (hr : r.Denotes bs) (hn : n ≤ 64) (h : n ≤ bs.length) :
    ∃ v r' bs', readBits n r = .ok (v, r') ∧ v.toNat < 2 ^ n ∧
      bs = bitsBE n v.toNat ++ bs' ∧ r'.Denotes bs' := by
  rcases Nat.eq_zero_or_pos n with rfl | hpos
  · exact ⟨0, r, bs, rfl, by decide, rfl, hr⟩
  obtain ⟨m, t, hm, ⟨hlen, ht, hbuf⟩, rfl⟩ := hr
  simp only [length_append, bitsBE_length, byteBits_length] at h
  rw [readBits, if_neg (by omega)]
  split
  · -- eight whole bytes
    rename_i h64
    obtain ⟨rfl, hzero⟩ := h64
    obtain rfl : m = 0 := by omega
    have htake : (r.rest.take 8).length = 8 := by rw [length_take]; omega
    have hlt : leNat (r.rest.take 8).reverse < UInt64.size := by
      have := leNat_lt (r.rest.take 8).reverse
      rw [length_reverse, htake] at this
      simpa using this
    have hbytes : beBytes 8 (leNat (r.rest.take 8).reverse) = r.rest.take 8 := by
      have := leBytes_leNat (r.rest.take 8).reverse
      rw [length_reverse, htake] at this
      rw [beBytes, this, reverse_reverse]
    refine ⟨_, _, byteBits (r.rest.drop 8), if_neg (by omega), UInt64.toNat_lt _, ?_,
      ⟨0, t, hm, ⟨hlen, ht, hbuf⟩, rfl⟩⟩
    rw [UInt64.toNat_ofNat_of_lt' hlt]
    conv_lhs => rw [← take_append_drop 8 r.rest, byteBits_append, ← hbytes, byteBits_beBytes]
    rfl
  obtain ⟨r', n', t', hfill, ⟨hlen', ht', hbuf'⟩, hge, hle, hbits⟩ :=
    fill_enough ht hn (by omega) h
  have hvalue : r'.bitBuf >>> (128 - n) = t' / 2 ^ (n' - n) := by
    rw [hbuf', aligned_top hge (by omega)]
  have hlt : t' / 2 ^ (n' - n) < 2 ^ n := top_lt hge ht'
  have hlt64 : t' / 2 ^ (n' - n) < 2 ^ 64 :=
    lt_of_lt_of_le hlt (Nat.pow_le_pow_right (by decide) hn)
  have hmask : (if n < 64 then (r'.bitBuf >>> (128 - n)) % 2 ^ 64 &&& ((1 <<< n) - 1)
      else (r'.bitBuf >>> (128 - n)) % 2 ^ 64) = t' / 2 ^ (n' - n) := by
    rw [hvalue, Nat.mod_eq_of_lt hlt64, BitWriter.and_mask, Nat.mod_eq_of_lt hlt, ite_self]
  rw [hbuf, hlen, hfill]
  refine ⟨_, _, bitsBE (n' - n) t' ++ byteBits r'.rest, rfl, ?_, ?_, ?_⟩
  · rw [hmask, UInt64.toNat_ofNat_of_lt' hlt64]
    exact hlt
  · rw [hmask, UInt64.toNat_ofNat_of_lt' hlt64, ← append_assoc, ← bitsBE_add, hbits,
      show n + (n' - n) = n' by omega]
  refine ⟨n' - n, t' % 2 ^ (n' - n), by omega, ⟨?_, Nat.mod_lt _ (Nat.two_pow_pos _), ?_⟩,
    by rw [bitsBE_mod]⟩
  · rw [← hlen']
  · dsimp only
    rw [hbuf', aligned_drop hge (by omega)]

theorem readBits_ok {v : UInt64} (hr : r.Denotes bs) (hn : n ≤ 64) :
    readBits n r = .ok (v, r') ↔
      ∃ bs', v.toNat < 2 ^ n ∧ bs = bitsBE n v.toNat ++ bs' ∧ r'.Denotes bs' := by
  rcases Nat.lt_or_ge bs.length n with hshort | henough
  · rw [readBits_short hr hshort]
    constructor
    · intro h
      cases h
    · rintro ⟨bs', -, rfl, -⟩
      simp only [length_append, bitsBE_length] at hshort
      omega
  obtain ⟨w, s, cs, hread, hw, hbits, hs⟩ := readBits_enough hr hn henough
  rw [hread]
  constructor
  · intro h
    obtain ⟨rfl, rfl⟩ := h
    exact ⟨cs, hw, hbits, hs⟩
  rintro ⟨bs', hv, hbits', hr'⟩
  obtain ⟨hnum, rfl⟩ := append_inj (hbits.symm.trans hbits') (by simp)
  have hvw : w = v := UInt64.toNat_inj.mp (bitsBE_injective hw hv hnum)
  rw [hvw, hs.injective hr']

section
variable {α β : Type} {m : BitM α} {f : α → BitM β} {a : α} {b : β} {bits bits' : List Bool}

/-- On these bits, whatever follows them, the program returns the value and stops behind them. -/
def Reads (m : BitM α) (bits : List Bool) (a : α) : Prop :=
  ∀ r bs, r.Denotes (bits ++ bs) → ∃ r', m r = .ok (a, r') ∧ r'.Denotes bs

theorem Reads.ret (a : α) : Reads (pure a) [] a := fun r _ hr => ⟨r, rfl, hr⟩

theorem Reads.seq (hm : Reads m bits a) (hf : Reads (f a) bits' b) :
    Reads (m >>= f) (bits ++ bits') b := by
  intro r bs hr
  rw [append_assoc] at hr
  obtain ⟨r', hread, hr'⟩ := hm r _ hr
  obtain ⟨r'', hnext, hr''⟩ := hf r' bs hr'
  exact ⟨r'', Parser.bind_ok.mpr ⟨a, r', hread, hnext⟩, hr''⟩

theorem Reads.last (hm : Reads m bits a) (hf : Reads (f a) [] b) : Reads (m >>= f) bits b := by
  rw [← append_nil bits]
  exact hm.seq hf

theorem Reads.ensure {c : Prop} [Decidable c] {e : IoError} {m : BitM α} (hc : c)
    (hm : Reads m bits a) : Reads (Parser.ensure c e >>= fun _ => m) bits a := by
  intro r bs hr
  obtain ⟨r', hread, hr'⟩ := hm r bs hr
  exact ⟨r', Parser.bind_ok.mpr ⟨(), r, Parser.ensure_ok.mpr ⟨hc, rfl⟩, hread⟩, hr'⟩

theorem reads_bits {n x : Nat} (hn : n ≤ 64) (hx : x < 2 ^ n) :
    Reads (readBits n) (bitsBE n x) (UInt64.ofNat x) := by
  intro r bs hr
  obtain ⟨v, r', bs', hread, hv, hbits, hr'⟩ := readBits_enough hr hn (by simp)
  obtain ⟨hnum, rfl⟩ := append_inj hbits (by simp)
  obtain rfl : x = v.toNat := bitsBE_injective hx hv hnum
  exact ⟨r', by rw [hread, UInt64.ofNat_toNat], hr'⟩

end

def bitValue (b : Bool) : UInt64 := if b then 1 else 0

theorem readBit_ok {v : UInt64} (hr : r.Denotes bs) :
    readBit r = .ok (v, r') ↔ ∃ b bs', v = bitValue b ∧ bs = b :: bs' ∧ r'.Denotes bs' := by
  rw [readBit, readBits_ok hr (by decide)]
  constructor
  · rintro ⟨bs', hv, rfl, hr'⟩
    refine ⟨v.toNat.testBit 0, bs', ?_, rfl, hr'⟩
    rw [← UInt64.toNat_inj, bitValue]
    have : v.toNat = 0 ∨ v.toNat = 1 := by omega
    rcases this with h | h <;> simp [h]
  · rintro ⟨b, bs', rfl, rfl, hr'⟩
    exact ⟨bs', by cases b <;> decide, by cases b <;> rfl, hr'⟩

theorem reads_bit (b : Bool) : Reads readBit [b] (bitValue b) := by
  have hread := reads_bits (n := 1) (x := if b then 1 else 0) (by decide) (by cases b <;> decide)
  cases b <;> exact hread

section
variable {α β : Type} {m : BitM α} {f : α → BitM β} {a : α} {b : β} {w w' w'' : BitWriter}

/-- What is written after `w` and up to `w'` makes the program return the value. -/
def Carries (w w' : BitWriter) (m : BitM α) (a : α) : Prop :=
  ∀ bs, w.Wrote bs → ∃ bits, w'.Wrote (bs ++ bits) ∧ Reads m bits a

theorem Reads.carries (h : Reads m [] a) : Carries w w m a :=
  fun bs hw => ⟨[], by rwa [append_nil], h⟩

theorem Carries.ret (a : α) : Carries w w (pure a) a := (Reads.ret a).carries

theorem Carries.seq (hm : Carries w w' m a) (hf : Carries w' w'' (f a) b) :
    Carries w w'' (m >>= f) b := by
  intro bs hw
  obtain ⟨bits, hw', hread⟩ := hm bs hw
  obtain ⟨bits', hw'', hnext⟩ := hf _ hw'
  exact ⟨bits ++ bits', by rwa [← append_assoc], hread.seq hnext⟩

theorem Carries.ensure {c : Prop} [Decidable c] {e : IoError} (hc : c) (hm : Carries w w' m a) :
    Carries w w' (Parser.ensure c e >>= fun _ => m) a := by
  intro bs hw
  obtain ⟨bits, hw', hread⟩ := hm bs hw
  exact ⟨bits, hw', hread.ensure hc⟩

theorem carries_bits {v : UInt64} (hn : n ≤ 64) (hv : v.toNat < 2 ^ n) :
    Carries w (w.writeBits v n) (readBits n) v := by
  intro bs hw
  have hread := reads_bits hn hv
  rw [UInt64.ofNat_toNat] at hread
  exact ⟨_, hw.bits hn v, hread⟩

theorem carries_bit (b : Bool) : Carries w (w.writeBit b) readBit (bitValue b) :=
  carries_bits (by decide) (by cases b <;> decide)

theorem Carries.finish (h : Carries .new w m a) : ∃ r, m (new w.finish) = .ok (a, r) := by
  obtain ⟨bits, hwrote, hread⟩ := h [] BitWriter.new_wrote
  obtain ⟨r, hr, -⟩ := hread _ _ (hwrote.finish ▸ new_denotes _)
  exact ⟨r, hr⟩

end

theorem requireCanonicalEnd_ok (hr : r.Denotes bs) :
    requireCanonicalEnd r = .ok ((), r') ↔
      r = r' ∧ bs.length < 8 ∧ bs = replicate bs.length false := by
  obtain ⟨n, t, hn, ⟨hlen, ht, hbuf⟩, rfl⟩ := hr
  have hpending : r.bitBuf >>> (128 - r.bitLen) = t := by
    rw [hbuf, hlen, Nat.shiftRight_eq_div_pow, Nat.mul_div_cancel _ (Nat.two_pow_pos _)]
  rw [requireCanonicalEnd, hpending]
  by_cases hrest : r.rest = []
  · rw [if_neg (by simpa using hrest), hrest, byteBits_nil, append_nil, bitsBE_length,
      ← bitsBE_zero]
    have hzero : bitsBE n t = bitsBE n 0 ↔ t = 0 :=
      ⟨fun h => bitsBE_injective ht (Nat.two_pow_pos n) h, fun h => by rw [h]⟩
    rw [hzero]
    split
    · rename_i hbad
      simp [hbad.2]
    rename_i hgood
    have ht0 : t = 0 := by
      rcases Nat.eq_zero_or_pos n with rfl | hpos
      · simpa using ht
      · by_contra hne
        exact hgood ⟨by omega, hne⟩
    simp [hn, ht0]
  · rw [if_pos (by simpa using hrest)]
    have hpos := length_pos_iff.mpr hrest
    simp only [reduceCtorEq, length_append, bitsBE_length, byteBits_length, false_iff]
    rintro ⟨-, h8, -⟩
    omega

abbrev BitField := UInt64 × Fin 65

def fieldBits (fields : List BitField) : List Bool :=
  fields.flatMap fun field => bitsBE field.2 field.1.toNat

def fieldValues (fields : List BitField) : List UInt64 :=
  fields.map fun field => .ofNat (field.1.toNat % 2 ^ field.2.val)

def readFields (fields : List BitField) : BitM (List UInt64) :=
  fields.mapM fun field => readBits field.2

def writeField (w : BitWriter) (field : BitField) : BitWriter := w.writeBits field.1 field.2

/-- `write_bits` without the paths for whole bytes. -/
def writeBitwise (w : BitWriter) (field : BitField) : BitWriter :=
  w.writeLoop field.2 (field.1.toNat % 2 ^ field.2.val) field.2

theorem foldl_wrote {write : BitWriter → BitField → BitWriter}
    (hwrite : ∀ w bs field, w.Wrote bs →
      (write w field).Wrote (bs ++ bitsBE field.2 field.1.toNat)) (fields : List BitField)
    {w : BitWriter} (h : w.Wrote bs) : (fields.foldl write w).Wrote (bs ++ fieldBits fields) := by
  induction fields generalizing w bs with
  | nil => rwa [fieldBits, flatMap_nil, append_nil]
  | cons field fields ih =>
    rw [fieldBits, flatMap_cons, ← append_assoc]
    exact ih (hwrite w bs field h)

theorem reads_fields (fields : List BitField) :
    Reads (readFields fields) (fieldBits fields) (fieldValues fields) := by
  induction fields with
  | nil => exact .ret []
  | cons field fields ih =>
    rw [readFields, mapM_cons, fieldBits, flatMap_cons, ← bitsBE_mod]
    have hfield := reads_bits (Nat.le_of_lt_succ field.2.isLt)
      (Nat.mod_lt field.1.toNat (Nat.two_pow_pos field.2))
    exact hfield.seq (ih.last (.ret _))

theorem bitstream_law (fields : List BitField) :
    let written := (fields.foldl writeField .new).finish
    byteBits written = fieldBits fields ++ BitWriter.padding (fieldBits fields) ∧
      (fields.foldl writeBitwise .new).finish = written ∧
      (∃ r, readFields fields (new written) = .ok (fieldValues fields, r) ∧
        requireCanonicalEnd r = .ok ((), r)) ∧
      ∀ buf rest, byteBits buf = fieldBits fields ++ rest →
        ∃ r, readFields fields (new buf) = .ok (fieldValues fields, r) ∧
          ((∃ r', requireCanonicalEnd r = .ok ((), r')) ↔
            rest.length < 8 ∧ rest = replicate rest.length false) := by
  intro written
  have hwritten : byteBits written = fieldBits fields ++ BitWriter.padding (fieldBits fields) := by
    apply BitWriter.Wrote.finish
    exact foldl_wrote (fun w bs field h => h.bits (Nat.le_of_lt_succ field.2.isLt) _) fields
      BitWriter.new_wrote
  have hread : ∀ buf rest, byteBits buf = fieldBits fields ++ rest → ∃ r : BitReader,
      readFields fields (new buf) = .ok (fieldValues fields, r) ∧ r.Denotes rest := by
    intro buf rest hbuf
    exact reads_fields fields (new buf) rest (hbuf ▸ new_denotes buf)
  refine ⟨hwritten, byteBits_injective ?_, ?_, ?_⟩
  · rw [hwritten]
    apply BitWriter.Wrote.finish
    refine foldl_wrote (fun w bs field h => ?_) fields BitWriter.new_wrote
    rw [← bitsBE_mod]
    exact BitWriter.writeLoop_wrote h le_rfl (Nat.mod_lt _ (Nat.two_pow_pos _))
  · obtain ⟨r, hok, hr⟩ := hread written _ hwritten
    refine ⟨r, hok, (requireCanonicalEnd_ok hr).mpr ⟨rfl, ?_, ?_⟩⟩
    · rw [BitWriter.padding, length_replicate]
      omega
    · rw [BitWriter.padding, length_replicate]
  · intro buf rest hbuf
    obtain ⟨r, hok, hr⟩ := hread buf rest hbuf
    refine ⟨r, hok, ?_⟩
    simp only [requireCanonicalEnd_ok hr, exists_eq_left']

end BitReader

end Chronoxide
