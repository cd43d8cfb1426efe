import Chronoxide.Chunk.Timestamps
import Chronoxide.Chunk.Types
import Chronoxide.Encoding.Gorilla

/-! What follows the base timestamp in a payload, in each of the five encodings: raw samples
one after the other, or all deltas before all values (`decode_chunk_record_with_layout`). -/

namespace Chronoxide
open Codec Parser List

structure BodyLayout where
  timestampDeltaBytes : Nat
  valueBytes : Nat
  deriving DecidableEq, Repr

def bodyLayout (t0Ms : UInt64) (timestamps : List UInt64) (body : Bytes) : BodyLayout :=
  ⟨(encodeDeltas t0Ms timestamps).length,
    body.length - (encodeDeltas t0Ms timestamps).length⟩

/-- `decode` accepts `n` samples exactly from what `encode` writes for them, and reports where
deltas and values lie. `payloadLen` counts the base timestamp in. -/
def DecodesBody {V : Type} (n : Nat)
    (decode : UInt64 → Nat → Reader (List (UInt64 × V) × BodyLayout))
    (encode : UInt64 → List (UInt64 × V) → Except IoError Bytes) : Prop :=
  ∀ {t0 : UInt64} {payloadLen : Nat} {bs rest : Bytes} {samples : List (UInt64 × V)}
    {layout : BodyLayout}, payloadLen = 8 + bs.length → payloadLen < 2 ^ 32 →
    (decode t0 payloadLen bs = .ok ((samples, layout), rest) ↔
      (samples.length = n ∧ (∀ t ∈ samples.map (·.1), t0 ≤ t) ∧ encode t0 samples = .ok bs) ∧
        layout = bodyLayout t0 (samples.map (·.1)) bs ∧ rest = [])

def trailingPayload : IoError := invalidData "chunk value payload has trailing bytes"

section Raw
variable {V : Type}

def encodeRawSample (encodeValue : V → Bytes) (t0Ms : UInt64) (sample : UInt64 × V) : Bytes :=
  encodeDelta t0Ms sample.1 ++ encodeValue sample.2

def encodeRawBody (encodeValue : V → Bytes) (t0Ms : UInt64) (samples : List (UInt64 × V)) :
    Bytes :=
  samples.flatMap (encodeRawSample encodeValue t0Ms)

def decodeRawSamples (readValue : Reader V) (t0Ms : UInt64) :
    Nat → Nat → Reader (List (UInt64 × V) × Nat)
  | 0, encodedTimestampBytes => return ([], encodedTimestampBytes)
  | n + 1, encodedTimestampBytes => do
    let beforeTimestamp ← Parser.remaining
    let dt ← decodeVarint
    let afterTimestamp ← Parser.remaining
    Parser.ensure (encodedTimestampBytes + (beforeTimestamp - afterTimestamp) < 2 ^ 64)
      (invalidData "timestamp byte count overflows")
    let value ← readValue
    let timestampMs ← Parser.lift (checkedTimestampMs t0Ms dt)
    let (samples, encodedTimestampBytes) ← decodeRawSamples readValue t0Ms n
      (encodedTimestampBytes + (beforeTimestamp - afterTimestamp))
    return ((timestampMs, value) :: samples, encodedTimestampBytes)

def decodeRawBody (readValue : Reader V) (underflow : String) (n : Nat) (t0Ms : UInt64)
    (payloadLen : Nat) : Reader (List (UInt64 × V) × BodyLayout) := do
  let (samples, timestampDeltaBytes) ← decodeRawSamples readValue t0Ms n 0
  Parser.atEnd trailingPayload
  Parser.ensure (8 + timestampDeltaBytes ≤ payloadLen) (invalidData underflow)
  return (samples, ⟨timestampDeltaBytes, payloadLen - (8 + timestampDeltaBytes)⟩)

variable {readValue : Reader V} {encodeValue : V → Bytes}

theorem decodeRawSamples_ok (hvalue : Parser.Codes readValue (fun _ => True) encodeValue)
    {t0 : UInt64} {n e e' : Nat} {bs rest : Bytes} {samples : List (UInt64 × V)}
    (hbound : e + bs.length < 2 ^ 64) :
    decodeRawSamples readValue t0 n e bs = .ok ((samples, e'), rest) ↔
      (samples.length = n ∧ (∀ t ∈ samples.map (·.1), t0 ≤ t) ∧
        bs = encodeRawBody encodeValue t0 samples ++ rest) ∧
        e' = e + (encodeDeltas t0 (samples.map (·.1))).length := by
  induction n generalizing e bs samples with
  | zero =>
    simp only [decodeRawSamples, pure_ok, Prod.mk.injEq, length_eq_zero_iff]
    constructor
    · rintro ⟨⟨rfl, rfl⟩, rfl⟩
      exact ⟨⟨rfl, by simp, rfl⟩, rfl⟩
    · rintro ⟨⟨rfl, -, rfl⟩, rfl⟩
      exact ⟨⟨rfl, rfl⟩, rfl⟩
  | succ n ih =>
    simp only [decodeRawSamples, bind_ok, remaining_ok, decodeVarint_ok, ensure_ok, exists_ensure,
      hvalue _ _ _, lift_ok, checkedTimestampMs_ok, pure_ok, Prod.exists, Prod.mk.injEq, true_and]
    have hdelta : ∀ (d tail : Bytes), (d ++ tail).length - tail.length = d.length := by
      intro d tail
      rw [length_append]
      omega
    constructor
    · rintro ⟨_, _, ⟨rfl, rfl⟩, dt, _, rfl, _, _, ⟨rfl, rfl⟩, -, v, _, rfl, t, _, ⟨⟨hle, rfl⟩, rfl⟩, ss, e₁,
        _, hrest, ⟨rfl, rfl⟩, rfl⟩
      rw [hdelta] at hrest
      simp only [length_append] at hbound
      obtain ⟨⟨rfl, hles, rfl⟩, rfl⟩ := (ih (by omega)).mp hrest
      refine ⟨⟨rfl, by simpa using ⟨hle, by simpa using hles⟩, ?_⟩, ?_⟩
      · simp [encodeRawBody, encodeRawSample, encodeDelta]
      · simp only [encodeDeltas, encodeDelta, map_cons, flatMap_cons, length_append]
        omega
    rintro ⟨⟨hlen, hles, rfl⟩, rfl⟩
    obtain ⟨⟨t, v⟩, ss, rfl⟩ := exists_cons_of_length_pos (by omega : 0 < samples.length)
    simp only [map_cons, mem_cons, forall_eq_or_imp] at hles
    simp only [encodeRawBody, encodeRawSample, encodeDelta, flatMap_cons, append_assoc] at hbound ⊢
    refine ⟨_, _, ⟨rfl, rfl⟩, _, _, rfl, _, _, ⟨rfl, rfl⟩, ?_, v, _, rfl, t, _, ⟨⟨hles.1, rfl⟩, rfl⟩,
      ss, _, rest, ?_, ⟨rfl, rfl⟩, rfl⟩
    · rw [hdelta]
      rw [length_append] at hbound
      omega
    rw [hdelta]
    simp only [length_append] at hbound
    refine (ih ?_).mpr ⟨⟨Nat.succ.inj hlen, hles.2, rfl⟩, ?_⟩
    · rw [length_append]
      omega
    · simp only [encodeDeltas, encodeDelta, map_cons, flatMap_cons, length_append]
      omega

theorem encodeDeltas_length_le_raw (encodeValue : V → Bytes) (t0 : UInt64) (samples : List (UInt64 × V)) :
    (encodeDeltas t0 (samples.map (·.1))).length ≤
      (encodeRawBody encodeValue t0 samples).length := by
  induction samples with
  | nil => exact le_rfl
  | cons s samples ih =>
    simp only [encodeDeltas, encodeRawBody, encodeRawSample, map_cons, flatMap_cons,
      length_append] at ih ⊢
    omega

theorem decodeRawBody_decodes (hvalue : Parser.Codes readValue (fun _ => True) encodeValue)
    (underflow : String) (n : Nat) :
    DecodesBody n (decodeRawBody readValue underflow n)
      (fun t0 samples => .ok (encodeRawBody encodeValue t0 samples)) := by
  intro t0 payloadLen bs rest samples layout hpayload hshort
  simp only [decodeRawBody, bind_ok, Prod.exists, atEnd_ok, ensure_ok, exists_ensure, pure_ok,
    Prod.mk.injEq, decodeRawSamples_ok hvalue (show 0 + bs.length < 2 ^ 64 by omega),
    Except.ok.injEq]
  constructor
  · rintro ⟨ss, e, _, ⟨⟨hn, hle, rfl⟩, rfl⟩, u, _, ⟨rfl, rfl⟩, hfit, ⟨rfl, rfl⟩, rfl⟩
    refine ⟨⟨hn, hle, (append_nil _).symm⟩, ?_, rfl⟩
    rw [append_nil] at hpayload
    rw [bodyLayout, append_nil, hpayload]
    congr 1 <;> omega
  rintro ⟨⟨hn, hle, rfl⟩, rfl, rfl⟩
  have hdeltas := encodeDeltas_length_le_raw encodeValue t0 samples
  refine ⟨samples, _, [], ⟨⟨hn, hle, (append_nil _).symm⟩, rfl⟩, (), [], ⟨rfl, rfl⟩,
    by omega, ⟨rfl, ?_⟩, rfl⟩
  congr 1 <;> omega

end Raw

section Split
variable {V : Type}

def encodeSplitBody (encodeValues : List V → Except IoError Bytes) (t0Ms : UInt64)
    (samples : List (UInt64 × V)) : Except IoError Bytes := do
  let valueBuf ← encodeValues (samples.map (·.2))
  return encodeDeltas t0Ms (samples.map (·.1)) ++ valueBuf

theorem encodeSplitBody_ok {encodeValues : List V → Except IoError Bytes} {t0 : UInt64}
    {samples : List (UInt64 × V)} {bs : Bytes} :
    encodeSplitBody encodeValues t0 samples = .ok bs ↔
      ∃ buf, encodeValues (samples.map (·.2)) = .ok buf ∧
        encodeDeltas t0 (samples.map (·.1)) ++ buf = bs := by
  simp only [encodeSplitBody, except_bind_ok, except_pure_ok]

def decodeSplitBody (decodeTimestamps : Reader (List UInt64)) (decodeValues : Reader (List V))
    (zip : List UInt64 → List V → Except IoError (List (UInt64 × V))) :
    Reader (List (UInt64 × V) × BodyLayout) := do
  let timestampsStart ← Parser.remaining
  let timestamps ← decodeTimestamps
  let valuesStart ← Parser.remaining
  let values ← decodeValues
  let stop ← Parser.remaining
  let samples ← Parser.lift (zip timestamps values)
  return (samples, ⟨timestampsStart - valuesStart, valuesStart - stop⟩)

variable (timestamps : List UInt64)

def zipSamples (values : List V) : Except IoError (List (UInt64 × V)) :=
  .ok (timestamps.zip values)

def zipDecodedSamples (values : List V) : Except IoError (List (UInt64 × V)) :=
  if timestamps.length ≠ values.length then
    .error (invalidData "decoded timestamp and value counts disagree")
  else .ok (timestamps.zip values)

theorem decodeSplitBody_decodes {n : Nat} {decodeTimestamps : UInt64 → Reader (List UInt64)}
    {decodeValues : Reader (List V)} {encodeValues : List V → Except IoError Bytes}
    {zip : List UInt64 → List V → Except IoError (List (UInt64 × V))}
    (hts : ∀ {t0 bs ts rest}, bs.length < 2 ^ 64 → (decodeTimestamps t0 bs = .ok (ts, rest) ↔
      (ts.length = n ∧ ∀ t ∈ ts, t0 ≤ t) ∧ bs = encodeDeltas t0 ts ++ rest))
    (hvs : ∀ {bs vs rest}, bs.length < 2 ^ 32 → (decodeValues bs = .ok (vs, rest) ↔
      (vs.length = n ∧ encodeValues vs = .ok bs) ∧ rest = []))
    (hzip : ∀ {ts vs}, ts.length = vs.length → zip ts vs = .ok (ts.zip vs)) :
    DecodesBody n (fun t0 _ => decodeSplitBody (decodeTimestamps t0) decodeValues zip)
      (encodeSplitBody encodeValues) := by
  intro t0 payloadLen bs rest samples layout hpayload hshort
  simp only [decodeSplitBody, bind_ok, remaining_ok, lift_ok,
    pure_ok, Prod.mk.injEq, encodeSplitBody_ok]
  constructor
  · rintro ⟨_, _, ⟨rfl, rfl⟩, ts, mid, htimes, _, _, ⟨rfl, rfl⟩, vs, mid', hvalues, _, _,
      ⟨rfl, rfl⟩, ss, _, ⟨hss, rfl⟩, ⟨rfl, rfl⟩, rfl⟩
    obtain ⟨⟨hn, hle⟩, rfl⟩ := (hts (by omega)).mp htimes
    rw [length_append] at hpayload
    obtain ⟨⟨hn', hbuf⟩, rfl⟩ := (hvs (by omega)).mp hvalues
    have hlen : ts.length = vs.length := hn.trans hn'.symm
    rw [hzip hlen, Except.ok.injEq] at hss
    subst hss
    have hfst : (ts.zip vs).map (·.1) = ts := map_fst_zip hlen.le
    have hsnd : (ts.zip vs).map (·.2) = vs := map_snd_zip hlen.ge
    refine ⟨⟨by rw [length_zip, hn, hn', Nat.min_self], by rwa [hfst],
      mid, by rwa [hsnd], by rw [hfst]⟩, ?_, rfl⟩
    rw [bodyLayout, hfst, length_append]
    simp
  rintro ⟨⟨hn, hle, buf, hbuf, rfl⟩, rfl, rfl⟩
  rw [length_append] at hpayload
  have hzipped : (samples.map (·.1)).zip (samples.map (·.2)) = samples := by
    rw [zip_map', map_id']
  refine ⟨_, _, ⟨rfl, rfl⟩, samples.map (·.1), buf,
    (hts (by rw [length_append]; omega)).mpr ⟨⟨by rwa [length_map], hle⟩, rfl⟩, _, _,
    ⟨rfl, rfl⟩, samples.map (·.2), [], (hvs (by omega)).mpr ⟨⟨by rwa [length_map], hbuf⟩, rfl⟩,
    _, _, ⟨rfl, rfl⟩, samples, [], ⟨?_, rfl⟩, ⟨rfl, ?_⟩, rfl⟩
  · rw [hzip (by rw [length_map, length_map]), hzipped]
  · rw [bodyLayout, length_append]
    simp

end Split

def encodeIntDeltas : Int64 → List Int64 → Bytes
  | _, [] => []
  | prev, value :: values =>
    encodeVarint (encodeZigzagI64 (value - prev)) ++ encodeIntDeltas value values

def decodeIntDeltas : Nat → Int64 → Reader (List Int64)
  | 0, _ => return []
  | n + 1, prev => do
    let encoded ← decodeVarint
    let value := prev + decodeZigzagI64 encoded
    let values ← decodeIntDeltas n value
    return value :: values

theorem decodeIntDeltas_ok {n : Nat} {prev : Int64} {bs rest : Bytes} {vs : List Int64} :
    decodeIntDeltas n prev bs = .ok (vs, rest) ↔
      vs.length = n ∧ bs = encodeIntDeltas prev vs ++ rest := by
  induction n generalizing prev bs rest vs with
  | zero =>
    simp only [decodeIntDeltas, pure_ok, length_eq_zero_iff]
    constructor
    · rintro ⟨rfl, rfl⟩
      exact ⟨rfl, rfl⟩
    · rintro ⟨rfl, rfl⟩
      exact ⟨rfl, rfl⟩
  | succ n ih =>
    simp only [decodeIntDeltas, bind_ok, decodeVarint_ok, ih, pure_ok]
    constructor
    · rintro ⟨encoded, _, rfl, vs', _, ⟨rfl, rfl⟩, rfl, rfl⟩
      have hdelta : prev + decodeZigzagI64 encoded - prev = decodeZigzagI64 encoded := by
        rw [Int64.add_comm, Int64.add_sub_cancel]
      rw [encodeIntDeltas, hdelta, encodeZigzagI64_decodeZigzagI64, append_assoc]
      exact ⟨rfl, rfl⟩
    rintro ⟨hlen, rfl⟩
    obtain ⟨v, vs, rfl⟩ := exists_cons_of_length_pos (by omega : 0 < vs.length)
    have hvalue : prev + (v - prev) = v := by
      rw [Int64.add_comm, Int64.sub_add_cancel]
    rw [encodeIntDeltas, append_assoc]
    refine ⟨_, _, rfl, vs, rest, ?_, ?_, rfl⟩
    · rw [decodeZigzagI64_encodeZigzagI64, hvalue]
      exact ⟨Nat.succ.inj hlen, rfl⟩
    · rw [decodeZigzagI64_encodeZigzagI64, hvalue]

theorem encodeIntDeltas_length_ge (prev : Int64) (vs : List Int64) :
    vs.length ≤ (encodeIntDeltas prev vs).length := by
  induction vs generalizing prev with
  | nil => exact le_rfl
  | cons v vs ih =>
    have h1 := ih v
    have h2 := encodeVarint_length_pos (encodeZigzagI64 (v - prev))
    rw [encodeIntDeltas, length_append, length_cons]
    omega

variable (n : Nat)

def decodeRawF64Body := decodeRawBody readF64 "float payload size underflows" n
def decodeRawI64Body := decodeRawBody readI64 "int payload size underflows" n

def decodeGorillaBody (t0Ms : UInt64) (_payloadLen : Nat) :
    Reader (List (UInt64 × F64) × BodyLayout) :=
  decodeSplitBody ((decodeTimestamp t0Ms).times n) (Parser.whole (decodeGorillaValues · n))
    zipSamples

def decodeIntDeltaBody (t0Ms : UInt64) (_payloadLen : Nat) :
    Reader (List (UInt64 × Int64) × BodyLayout) :=
  decodeSplitBody ((decodeTimestamp t0Ms).times n) (do
    let values ← decodeIntDeltas n 0
    Parser.atEnd trailingPayload
    return values) zipSamples

section Typed
variable (T : Type) [SchemaVarLenEncoding T]

def decodeSchemaVarlenBody (n : Nat) (t0Ms : UInt64) (_payloadLen : Nat) :
    Reader (List (UInt64 × T) × BodyLayout) :=
  decodeSplitBody (decodeTimestamps t0Ms n)
    (Parser.whole (SchemaVarLenCodec.decodeValues · n)) zipDecodedSamples

variable {T}

def encodeSchemaValues : List T → Except IoError Bytes
  | [] => .error (invalidInput "samples must be non-empty")
  | first :: rest => encodeSchemaVarlenValues first rest

end Typed

theorem decodeRawF64Body_decodes :
    DecodesBody n (decodeRawF64Body n) fun t0 s => .ok (encodeRawBody encodeF64 t0 s) :=
  decodeRawBody_decodes (fun _ _ _ => by rw [readF64_ok, true_and]) _ n

theorem decodeRawI64Body_decodes :
    DecodesBody n (decodeRawI64Body n) fun t0 s => .ok (encodeRawBody i64ToLe t0 s) :=
  decodeRawBody_decodes (fun _ _ _ => by rw [readI64_ok, true_and]) _ n

theorem decodeGorillaBody_decodes {n : Nat} (hpos : n ≠ 0) (hn : n < 2 ^ 32) :
    DecodesBody n (decodeGorillaBody n) (encodeSplitBody encodeGorillaValues) :=
  decodeSplitBody_decodes (fun _ => timesTimestamp_ok)
    (fun _ => by rw [whole_ok, decodeGorillaValues_ok hpos (by omega)]) (fun _ => rfl)

theorem decodeIntDeltaBody_decodes : DecodesBody n (decodeIntDeltaBody n)
      (encodeSplitBody fun values => .ok (encodeIntDeltas 0 values)) := by
  refine decodeSplitBody_decodes (fun _ => timesTimestamp_ok) (fun _ => ?_) (fun _ => rfl)
  simp only [bind_ok, decodeIntDeltas_ok, atEnd_ok, pure_ok, Except.ok.injEq]
  constructor
  · rintro ⟨vs, _, ⟨hlen, rfl⟩, u, _, ⟨rfl, rfl⟩, rfl, rfl⟩
    exact ⟨⟨hlen, (append_nil _).symm⟩, rfl⟩
  · rintro ⟨⟨hlen, rfl⟩, rfl⟩
    exact ⟨_, [], ⟨hlen, (append_nil _).symm⟩, (), [], ⟨rfl, rfl⟩, rfl, rfl⟩

section TypedLaws
open LawfulSchemaVarLen
variable {T : Type} [SchemaVarLenEncoding T] [LawfulSchemaVarLen T]

theorem encodeSchemaValues_ok {vs : List T} {out : Bytes} (hout : out.length < 2 ^ 32)
    (hcount : vs.length ≤ 2 ^ 32) :
    encodeSchemaValues vs = .ok out ↔ vs ≠ [] ∧ (∀ v ∈ vs, Storable v) ∧ out = encodeValues vs := by
  cases vs with
  | nil => simp [encodeSchemaValues]
  | cons v vs =>
    have hroom : (firstSeen [] ((v :: vs).map key)).length ≤ 2 ^ 32 :=
      (length_firstSeen_le ..).trans (by simpa using hcount)
    rw [encodeSchemaValues, encodeSchemaVarlenValues_ok (by omega), and_iff_right hroom]
    simp

theorem decodeSchemaVarlenBody_decodes {n : Nat} (hpos : n ≠ 0) (hn : n < 2 ^ 32) :
    DecodesBody n (decodeSchemaVarlenBody T n) (encodeSplitBody encodeSchemaValues) := by
  refine decodeSplitBody_decodes decodeTimestamps_ok (fun {bs vs rest} hbs => ?_)
    (fun {ts vs} hlen => ?_)
  · rw [whole_ok, decodeValues_ok hpos (by omega)]
    refine and_congr_left fun _ => and_congr_right fun hlen => ?_
    rw [encodeSchemaValues_ok hbs (by omega)]
    refine (and_iff_right ?_).symm
    rintro rfl
    exact hpos hlen.symm
  · rw [zipDecodedSamples, if_neg (not_not.mpr hlen)]

theorem encodeValues_length {vs : List T} (h : vs ≠ []) :
    vs.length + 2 ≤ (encodeValues vs).length := by
  have htable : 1 ≤ (firstSeen [] (vs.map key)).length := by
    obtain ⟨v, vs, rfl⟩ := exists_cons_of_ne_nil h
    exact length_pos_of_mem
      (mem_firstSeen_iff.mpr (.inr (mem_map_of_mem mem_cons_self)))
  have hentries := length_flatMap_ge encodeEntry_length_pos (firstSeen [] (vs.map key))
  have hvalues := length_flatMap_ge (encodeTagged_length_pos (firstSeen [] (vs.map key))) vs
  have hcount := encodeLen_length_pos (firstSeen [] (vs.map key)).length
  simp only [encodeValues, SchemaVarLenCodec.writeSchemaHeader, length_append]
  omega

end TypedLaws

end Chronoxide
