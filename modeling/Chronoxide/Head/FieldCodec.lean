import Chronoxide.Encoding.Varint
import Chronoxide.Head.Types

/-! The fields typed values are written with (`head/encoded.rs`): doubles, options, lengths,
32-bit integers, metadata and the feasibility check that comes before every list. -/

namespace Chronoxide
open Codec Parser List

variable {α : Type}

theorem length_flatMap_ge {enc : α → Bytes} {m : Nat}
    (hmin : ∀ a, m ≤ (enc a).length) (as : List α) : as.length * m ≤ (as.flatMap enc).length := by
  induction as with
  | nil => simp
  | cons a as ih =>
    have := hmin a
    rw [flatMap_cons, length_append, length_cons, Nat.succ_mul]
    omega

theorem length_flatMap_le {enc : α → Bytes} {m : Nat} {as : List α}
    (h : ∀ a ∈ as, (enc a).length ≤ m) : (as.flatMap enc).length ≤ as.length * m := by
  induction as with
  | nil => simp
  | cons a as ih =>
    simp only [mem_cons, forall_eq_or_imp] at h
    have hrest := ih h.2
    rw [flatMap_cons, length_append, length_cons, Nat.add_mul]
    omega

theorem length_flatMap_eq {enc : α → Bytes} {m : Nat} (h : ∀ a, (enc a).length = m)
    (as : List α) : (as.flatMap enc).length = as.length * m :=
  Nat.le_antisymm (length_flatMap_le fun a _ => (h a).le) (length_flatMap_ge (fun a => (h a).ge) as)

theorem length_le_flatMap (enc : α → Bytes) {as : List α} {a : α} (h : a ∈ as) :
    (enc a).length ≤ (as.flatMap enc).length := by
  induction as with
  | nil => cases h
  | cons b as ih =>
    rw [flatMap_cons, length_append]
    rcases mem_cons.mp h with rfl | h
    · omega
    · have := ih h
      omega

def encodeF64 (value : F64) : Bytes := u64ToLe value.bits

def f64FromLe (bs : Bytes) : F64 := ⟨u64FromLe bs⟩

@[simp] theorem encodeF64_length (x : F64) : (encodeF64 x).length = 8 := u64ToLe_length _

theorem f64FromLe_eq_iff {bs : Bytes} (h : bs.length = 8) (x : F64) :
    f64FromLe bs = x ↔ bs = encodeF64 x := by
  rw [encodeF64, ← u64FromLe_eq_iff h, f64FromLe]
  constructor
  · rintro rfl
    rfl
  · intro hx
    rw [hx]

def takeF64 (message : String) : Reader F64 := do
  return f64FromLe (← Parser.takeN 8 (unexpectedEof message))

def decodeF64 : Reader F64 := takeF64 "short f64"
def readF64 : Reader F64 := takeF64 "short read"

def readU64 : Reader UInt64 := do
  return u64FromLe (← Parser.takeN 8 (unexpectedEof "short read"))

def readI64 : Reader Int64 := do
  return i64FromLe (← Parser.takeN 8 (unexpectedEof "short read"))

section Fixed
variable {bs rest : Bytes} {x : F64}

theorem takeF64_ok {message : String} :
    takeF64 message bs = .ok (x, rest) ↔ bs = encodeF64 x ++ rest := by
  rw [takeF64, takeN_map_codes encodeF64_length (fun _ a h => f64FromLe_eq_iff h a), true_and]

theorem decodeF64_ok : decodeF64 bs = .ok (x, rest) ↔ bs = encodeF64 x ++ rest := takeF64_ok

theorem decodeF64_codes : Parser.Codes decodeF64 (fun _ => True) encodeF64 := fun _ _ _ => by
  rw [decodeF64_ok, true_and]

theorem readF64_ok : readF64 bs = .ok (x, rest) ↔ bs = encodeF64 x ++ rest := takeF64_ok

theorem readU64_ok {v : UInt64} : readU64 bs = .ok (v, rest) ↔ bs = u64ToLe v ++ rest := by
  rw [readU64, takeN_map_codes u64ToLe_length (fun _ a h => u64FromLe_eq_iff h a), true_and]

theorem readI64_ok {v : Int64} : readI64 bs = .ok (v, rest) ↔ bs = i64ToLe v ++ rest := by
  rw [readI64, takeN_map_codes i64ToLe_length (fun _ a h => i64FromLe_eq_iff h a), true_and]

end Fixed

def encodeOption {α : Type} (encode : α → Bytes) : Option α → Bytes
  | some value => 1 :: encode value
  | none => [0]

def decodeOption {α : Type} (decode : Reader α) (short invalid : String) :
    Reader (Option α) := do
  let flag ← Parser.next (unexpectedEof short)
  if flag = 0 then return none
  else if flag = 1 then return some (← decode)
  else Parser.fail (invalidData invalid)

variable {bs rest : Bytes}

theorem decodeOption_ok {decode : Reader α} {encode : α → Bytes}
    (hcodes : Parser.Codes decode (fun _ => True) encode) {short invalid : String} {v : Option α} :
    decodeOption decode short invalid bs = .ok (v, rest) ↔ bs = encodeOption encode v ++ rest := by
  simp only [decodeOption, bind_ok, next_ok]
  constructor
  · rintro ⟨flag, mid, rfl, h⟩
    split at h
    · rename_i h0
      obtain ⟨rfl, rfl⟩ := pure_ok.mp h
      rw [h0]
      rfl
    split at h
    · rename_i h1
      simp only [bind_ok, pure_ok, hcodes _ _ _, true_and] at h
      obtain ⟨x, mid', rfl, rfl, rfl⟩ := h
      rw [h1]
      rfl
    · cases h
  rintro rfl
  cases v with
  | none => exact ⟨0, rest, rfl, rfl⟩
  | some x =>
    refine ⟨1, encode x ++ rest, rfl, ?_⟩
    rw [if_neg (by decide), if_pos rfl]
    simp only [bind_ok, pure_ok, hcodes _ _ _, true_and]
    exact ⟨x, rest, rfl, rfl, rfl⟩

def encodeOptF64 : Option F64 → Bytes := encodeOption encodeF64

def decodeOptF64 : Reader (Option F64) :=
  decodeOption decodeF64 "short option" "invalid option flag"

theorem decodeOptF64_ok {v : Option F64} :
    decodeOptF64 bs = .ok (v, rest) ↔ bs = encodeOptF64 v ++ rest :=
  decodeOption_ok decodeF64_codes

theorem encodeOptF64_length_pos (v : Option F64) : 0 < (encodeOptF64 v).length := by
  cases v <;> simp [encodeOptF64, encodeOption]

def encodeLen (len : Nat) : Bytes := encodeVarint (UInt64.ofNat len)

-- `usize::try_from` cannot fail: `usize` has 64 bits here.
def decodeLen : Reader Nat := do
  return (← decodeVarint).toNat

theorem decodeLen_ok {n : Nat} :
    decodeLen bs = .ok (n, rest) ↔ n < 2 ^ 64 ∧ bs = encodeLen n ++ rest := by
  simp only [decodeLen, bind_ok, pure_ok, decodeVarint_ok]
  constructor
  · rintro ⟨v, mid, rfl, rfl, rfl⟩
    exact ⟨v.toNat_lt, by rw [encodeLen, UInt64.ofNat_toNat]⟩
  · rintro ⟨hn, rfl⟩
    exact ⟨UInt64.ofNat n, rest, rfl, UInt64.toNat_ofNat_of_lt' hn, rfl⟩

def encodeI32 (value : Int32) : Bytes := encodeVarint (encodeZigzagI64 value.toInt64)

def decodeI32 : Reader Int32 := do
  let decoded := decodeZigzagI64 (← decodeVarint)
  Parser.ensure (-2 ^ 31 ≤ decoded.toInt ∧ decoded.toInt < 2 ^ 31) (invalidData "i32 overflow")
  return decoded.toInt32

theorem decodeI32_ok {v : Int32} : decodeI32 bs = .ok (v, rest) ↔ bs = encodeI32 v ++ rest := by
  simp only [decodeI32, bind_ok, ensure_ok, exists_ensure, pure_ok, decodeVarint_ok]
  constructor
  · rintro ⟨u, mid, rfl, hrange, rfl, rfl⟩
    have hback : (decodeZigzagI64 u).toInt32.toInt64 = decodeZigzagI64 u := by
      rw [← Int64.toInt_inj, Int32.toInt_toInt64, Int64.toInt_toInt32]
      exact Int.bmod_eq_of_le (by omega) (by omega)
    rw [encodeI32, hback, encodeZigzagI64_decodeZigzagI64]
  · rintro rfl
    refine ⟨_, rest, rfl, ?_⟩
    rw [decodeZigzagI64_encodeZigzagI64, Int32.toInt_toInt64, Int32.toInt32_toInt64]
    exact ⟨⟨Int32.le_toInt v, Int32.toInt_lt v⟩, rfl, rfl⟩

def ensureDecodedItemsFit (itemCount minimumBytesPerItem : Nat) (field : String) :
    Reader Unit := do
  let availableBytes ← Parser.remaining
  Parser.ensure (itemCount * minimumBytesPerItem < 2 ^ 64)
    (invalidData (field ++ " minimum encoded size overflows"))
  Parser.ensure (itemCount * minimumBytesPerItem ≤ availableBytes)
    (invalidData (field ++ " count is infeasible for the remaining encoded bytes"))

theorem ensureDecodedItemsFit_ok {n m : Nat} {field : String} {u : Unit} :
    ensureDecodedItemsFit n m field bs = .ok (u, rest) ↔
      (n * m < 2 ^ 64 ∧ n * m ≤ bs.length) ∧ bs = rest := by
  simp only [ensureDecodedItemsFit, bind_ok, remaining_ok, ensure_ok]
  constructor
  · rintro ⟨k, mid, ⟨rfl, rfl⟩, v, mid', ⟨h1, rfl⟩, h2, rfl⟩
    exact ⟨⟨h1, h2⟩, rfl⟩
  · rintro ⟨⟨h1, h2⟩, rfl⟩
    exact ⟨_, bs, ⟨rfl, rfl⟩, (), bs, ⟨h1, rfl⟩, h2, rfl⟩

def decodeItems {α : Type} (decodeItem : Reader α) (itemCount minimumBytesPerItem : Nat)
    (field : String) : Reader (List α) := do
  ensureDecodedItemsFit itemCount minimumBytesPerItem field
  decodeItem.times itemCount

theorem decodeItems_ok {decodeItem : Reader α} {enc : α → Bytes} {m n : Nat}
    (hcodes : Parser.Codes decodeItem (fun _ => True) enc) (hmin : ∀ a, m ≤ (enc a).length)
    {field : String} {as : List α} :
    decodeItems decodeItem n m field bs = .ok (as, rest) ↔
      n * m < 2 ^ 64 ∧ as.length = n ∧ bs = as.flatMap enc ++ rest := by
  simp only [decodeItems, bind_ok, ensureDecodedItemsFit_ok, exists_ensure, hcodes.times n _ _ _]
  constructor
  · rintro ⟨⟨h1, -⟩, ⟨hlen, -⟩, hbs⟩
    exact ⟨h1, hlen, hbs⟩
  rintro ⟨h1, rfl, rfl⟩
  refine ⟨⟨h1, ?_⟩, ⟨rfl, fun _ _ => trivial⟩, rfl⟩
  rw [length_append]
  exact Nat.le_add_right_of_le (length_flatMap_ge hmin as)

def OtlpAggregationTemporality.toU64 : OtlpAggregationTemporality → UInt64
  | .unspecified => 0
  | .delta => 1
  | .cumulative => 2

def CounterResetHint.toU64 : CounterResetHint → UInt64
  | .unknown => 0
  | .counterReset => 1
  | .notCounterReset => 2
  | .gaugeType => 3

def decodeTemporality (value : UInt64) : Except IoError OtlpAggregationTemporality :=
  if value = 0 then .ok .unspecified
  else if value = 1 then .ok .delta
  else if value = 2 then .ok .cumulative
  else .error (invalidData "invalid aggregation temporality")

def decodeCounterResetHint (value : UInt64) : Except IoError CounterResetHint :=
  if value = 0 then .ok .unknown
  else if value = 1 then .ok .counterReset
  else if value = 2 then .ok .notCounterReset
  else if value = 3 then .ok .gaugeType
  else .error (invalidData "invalid counter reset hint")

theorem decodeTemporality_ok {v : UInt64} {t : OtlpAggregationTemporality} :
    decodeTemporality v = .ok t ↔ v = t.toU64 := by
  unfold decodeTemporality
  cases t <;> split_ifs <;> simp_all [OtlpAggregationTemporality.toU64]

theorem decodeCounterResetHint_ok {v : UInt64} {h : CounterResetHint} :
    decodeCounterResetHint v = .ok h ↔ v = h.toU64 := by
  unfold decodeCounterResetHint
  cases h <;> split_ifs <;> simp_all [CounterResetHint.toU64]

def encodeStartTime : Option UInt64 → Bytes := encodeOption encodeVarint

def decodeStartTime : Reader (Option UInt64) :=
  decodeOption decodeVarint "short start time option" "invalid start time option flag"

theorem decodeStartTime_ok {v : Option UInt64} :
    decodeStartTime bs = .ok (v, rest) ↔ bs = encodeStartTime v ++ rest :=
  decodeOption_ok decodeVarint_codes

def encodeTypedMetadata (metadata : TypedSampleMetadata) : Bytes :=
  encodeVarint metadata.flags.toUInt64 ++ encodeVarint metadata.temporality.toU64 ++
    encodeVarint metadata.resetHint.toU64 ++ encodeStartTime metadata.startTimeMs

def decodeTypedMetadata : Reader TypedSampleMetadata := do
  let flags ← decodeVarint
  let temporality ← Parser.lift (decodeTemporality (← decodeVarint))
  let resetHint ← Parser.lift (decodeCounterResetHint (← decodeVarint))
  let startTimeMs ← decodeStartTime
  Parser.ensure (flags.toNat < 2 ^ 32) (invalidData "flags overflow")
  return { startTimeMs, flags := flags.toUInt32, temporality, resetHint }

theorem decodeTypedMetadata_ok {m : TypedSampleMetadata} :
    decodeTypedMetadata bs = .ok (m, rest) ↔ bs = encodeTypedMetadata m ++ rest := by
  simp only [decodeTypedMetadata, bind_ok, lift_ok, ensure_ok, exists_ensure, pure_ok,
    decodeVarint_ok, decodeStartTime_ok, decodeTemporality_ok, decodeCounterResetHint_ok]
  constructor
  · rintro ⟨flags, _, rfl, t, _, rfl, temp, _, ⟨rfl, rfl⟩, r, _, rfl, hint, _, ⟨rfl, rfl⟩, start, _,
      rfl, hlt, rfl, rfl⟩
    have hflags : flags.toUInt32.toUInt64 = flags := by
      rw [← UInt64.toNat_inj, UInt32.toNat_toUInt64, UInt64.toNat_toUInt32, Nat.mod_eq_of_lt hlt]
    simp [encodeTypedMetadata, hflags]
  · rintro rfl
    simp only [encodeTypedMetadata, append_assoc]
    exact ⟨_, _, rfl, _, _, rfl, _, _, ⟨rfl, rfl⟩, _, _, rfl, _, _, ⟨rfl, rfl⟩, _, _, rfl,
      m.flags.toNat_lt, by simp, rfl⟩

theorem encodeVarint_length_pos (v : UInt64) : 0 < (encodeVarint v).length := by
  rw [encodeVarint_length]
  exact varintLen_pos v

theorem encodeTypedMetadata_length (m : TypedSampleMetadata) :
    4 ≤ (encodeTypedMetadata m).length := by
  have h1 := encodeVarint_length_pos m.flags.toUInt64
  have h2 := encodeVarint_length_pos m.temporality.toU64
  have h3 := encodeVarint_length_pos m.resetHint.toU64
  have h4 : 0 < (encodeStartTime m.startTimeMs).length := by
    cases m.startTimeMs <;> simp [encodeStartTime, encodeOption]
  simp only [encodeTypedMetadata, length_append]
  omega

end Chronoxide
