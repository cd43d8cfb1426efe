import Chronoxide.Chunk.Body
import Chronoxide.Chunk.Lane

/-! Full decoding of a chunk record, and which byte strings it accepts
(`decode_chunk_record_with_layout`). -/

namespace Chronoxide
open Codec List

structure DecodedChunkLayout where
  kind : ChunkKind
  encoding : ChunkEncoding
  flags : UInt16
  numPoints : UInt32
  commonHeaderBytes : UInt32
  scalarLaneBytes : UInt32
  payloadBytes : UInt32
  timestampBaseBytes : UInt32
  timestampDeltaBytes : UInt32
  valueBytes : UInt32
  deriving DecidableEq, Repr

def withSamples {V : Type} (wrap : List (UInt64 × V) → ChunkSamples)
    (body : Reader (List (UInt64 × V) × BodyLayout)) : Reader (ChunkSamples × BodyLayout) :=
  (fun r => (wrap r.1, r.2)) <$> body

def decodeChunkSamples (kind : ChunkKind) (encoding : ChunkEncoding) (n : Nat) (t0Ms : UInt64)
    (payloadLen : Nat) : Reader (ChunkSamples × BodyLayout) :=
  match kind with
  | .float => match encoding with
    | .rawF64 => withSamples .float (decodeRawF64Body n t0Ms payloadLen)
    | .gorilla => withSamples .float (decodeGorillaBody n t0Ms payloadLen)
    | _ => Parser.fail (invalidData "unsupported float chunk encoding")
  | .int64 => match encoding with
    | .intDeltaZigZag => withSamples .int64 (decodeIntDeltaBody n t0Ms payloadLen)
    | .rawI64 => withSamples .int64 (decodeRawI64Body n t0Ms payloadLen)
    | _ => Parser.fail (invalidData "unsupported int chunk encoding")
  | .histogram => match encoding with
    | .schemaVarLen =>
      withSamples .histogram (decodeSchemaVarlenBody HistogramValue n t0Ms payloadLen)
    | _ => Parser.fail (invalidData "unsupported histogram chunk encoding")
  | .exponentialHistogram => match encoding with
    | .schemaVarLen => withSamples .exponentialHistogram
        (decodeSchemaVarlenBody ExponentialHistogramValue n t0Ms payloadLen)
    | _ => Parser.fail (invalidData "unsupported exponential histogram chunk encoding")
  | .summary => match encoding with
    | .schemaVarLen =>
      withSamples .summary (decodeSchemaVarlenBody SummaryValue n t0Ms payloadLen)
    | _ => Parser.fail (invalidData "unsupported summary chunk encoding")

/-- What the writer stores after the base timestamp; other pairs are never written. -/
def encodeBody (encoding : ChunkEncoding) (t0Ms : UInt64) : ChunkSamples → Except IoError Bytes
  | .float samples => match encoding with
    | .rawF64 => .ok (encodeRawBody encodeF64 t0Ms samples)
    | .gorilla => encodeSplitBody encodeGorillaValues t0Ms samples
    | _ => .error (invalidInput "unsupported float chunk encoding")
  | .int64 samples => match encoding with
    | .intDeltaZigZag => encodeSplitBody (fun v => .ok (encodeIntDeltas 0 v)) t0Ms samples
    | .rawI64 => .ok (encodeRawBody i64ToLe t0Ms samples)
    | _ => .error (invalidInput "unsupported int chunk encoding")
  | .histogram samples => match encoding with
    | .schemaVarLen => encodeSplitBody encodeSchemaValues t0Ms samples
    | _ => .error (invalidInput "unsupported histogram chunk encoding")
  | .exponentialHistogram samples => match encoding with
    | .schemaVarLen => encodeSplitBody encodeSchemaValues t0Ms samples
    | _ => .error (invalidInput "unsupported exponential histogram chunk encoding")
  | .summary samples => match encoding with
    | .schemaVarLen => encodeSplitBody encodeSchemaValues t0Ms samples
    | _ => .error (invalidInput "unsupported summary chunk encoding")

variable {V : Type}

section Samples
variable {encoding : ChunkEncoding} {kind : ChunkKind} {n payloadLen : Nat} {t0 : UInt64}
  {bs rest : Bytes} {samples : ChunkSamples} {layout : BodyLayout}

def SamplesOf (kind : ChunkKind) (encoding : ChunkEncoding) (n : Nat) (t0 : UInt64)
    (bs : Bytes) (samples : ChunkSamples) (layout : BodyLayout) (rest : Bytes) : Prop :=
  samples.kind = kind ∧ (samples.timestamps.length = n ∧ (∀ t ∈ samples.timestamps, t0 ≤ t) ∧
    encodeBody encoding t0 samples = .ok bs) ∧
    layout = bodyLayout t0 samples.timestamps bs ∧ rest = []

variable {wrap : List (UInt64 × V) → ChunkSamples}

theorem withSamples_ok
    {decode : UInt64 → Nat → Reader (List (UInt64 × V) × BodyLayout)}
    {encode : UInt64 → List (UInt64 × V) → Except IoError Bytes} (h : DecodesBody n decode encode)
    (hkind : ∀ s : ChunkSamples, s.kind = kind ↔ ∃ l, s = wrap l)
    (htimes : ∀ l, (wrap l).timestamps = l.map (·.1))
    (hencode : ∀ l, encodeBody encoding t0 (wrap l) = encode t0 l)
    (hpayload : payloadLen = 8 + bs.length) (hshort : payloadLen < 2 ^ 32) :
    withSamples wrap (decode t0 payloadLen) bs = .ok ((samples, layout), rest) ↔
      SamplesOf kind encoding n t0 bs samples layout rest := by
  simp only [withSamples, Parser.map_ok, Prod.exists, h hpayload hshort, Prod.mk.injEq, SamplesOf,
    hkind]
  constructor
  · rintro ⟨l, layout, ⟨⟨hn, hle, henc⟩, rfl, rfl⟩, rfl, rfl⟩
    rw [htimes, hencode, length_map]
    exact ⟨⟨l, rfl⟩, ⟨hn, hle, henc⟩, rfl, rfl⟩
  rintro ⟨⟨l, rfl⟩, ⟨hn, hle, henc⟩, rfl, rfl⟩
  rw [htimes, length_map] at hn
  rw [htimes] at hle ⊢
  rw [hencode] at henc
  exact ⟨l, _, ⟨⟨hn, hle, henc⟩, rfl, rfl⟩, rfl, rfl⟩

theorem unsupported_ok {e : IoError}
    {e' : IoError} (hkind : ∀ s : ChunkSamples, s.kind = kind ↔ ∃ l, s = wrap l)
    (hencode : ∀ l, encodeBody encoding t0 (wrap l) = .error e') :
    (Parser.fail e : Reader (ChunkSamples × BodyLayout)) bs = .ok ((samples, layout), rest) ↔
      SamplesOf kind encoding n t0 bs samples layout rest := by
  rw [Parser.fail_ok, SamplesOf, hkind, false_iff]
  rintro ⟨⟨l, rfl⟩, ⟨-, -, henc⟩, -⟩
  rw [hencode] at henc
  cases henc

variable (s : ChunkSamples)

open ChunkSamples

theorem kind_float : s.kind = .float ↔ ∃ l, s = .float l := by
  cases s <;> simp [kind]

theorem kind_int64 : s.kind = .int64 ↔ ∃ l, s = .int64 l := by
  cases s <;> simp [kind]

theorem kind_histogram : s.kind = .histogram ↔ ∃ l, s = .histogram l := by
  cases s <;> simp [kind]

theorem kind_exponentialHistogram :
    s.kind = .exponentialHistogram ↔ ∃ l, s = .exponentialHistogram l := by
  cases s <;> simp [kind]

theorem kind_summary : s.kind = .summary ↔ ∃ l, s = .summary l := by
  cases s <;> simp [kind]

theorem decodeChunkSamples_ok (hpos : n ≠ 0) (hn : n < 2 ^ 32)
    (hpayload : payloadLen = 8 + bs.length) (hshort : payloadLen < 2 ^ 32) :
    decodeChunkSamples kind encoding n t0 payloadLen bs = .ok ((samples, layout), rest) ↔
      SamplesOf kind encoding n t0 bs samples layout rest := by
  cases kind with
  | float =>
    cases encoding with
    | rawF64 =>
      exact withSamples_ok (decodeRawF64Body_decodes n) kind_float (fun _ => rfl) (fun _ => rfl)
        hpayload hshort
    | gorilla =>
      exact withSamples_ok (decodeGorillaBody_decodes hpos hn) kind_float (fun _ => rfl)
        (fun _ => rfl) hpayload hshort
    | _ => exact unsupported_ok kind_float fun _ => rfl
  | int64 =>
    cases encoding with
    | rawI64 =>
      exact withSamples_ok (decodeRawI64Body_decodes n) kind_int64 (fun _ => rfl) (fun _ => rfl)
        hpayload hshort
    | intDeltaZigZag =>
      exact withSamples_ok (decodeIntDeltaBody_decodes n) kind_int64 (fun _ => rfl)
        (fun _ => rfl) hpayload hshort
    | _ => exact unsupported_ok kind_int64 fun _ => rfl
  | histogram =>
    cases encoding with
    | schemaVarLen =>
      exact withSamples_ok (decodeSchemaVarlenBody_decodes hpos hn) kind_histogram
        (fun _ => rfl) (fun _ => rfl) hpayload hshort
    | _ => exact unsupported_ok kind_histogram fun _ => rfl
  | exponentialHistogram =>
    cases encoding with
    | schemaVarLen =>
      exact withSamples_ok (decodeSchemaVarlenBody_decodes hpos hn) kind_exponentialHistogram
        (fun _ => rfl) (fun _ => rfl) hpayload hshort
    | _ => exact unsupported_ok kind_exponentialHistogram fun _ => rfl
  | summary =>
    cases encoding with
    | schemaVarLen =>
      exact withSamples_ok (decodeSchemaVarlenBody_decodes hpos hn) kind_summary
        (fun _ => rfl) (fun _ => rfl) hpayload hshort
    | _ => exact unsupported_ok kind_summary fun _ => rfl

end Samples

def checkedMul (a b : Nat) : Option Nat := if a * b < 2 ^ 64 then some (a * b) else none
def checkedAdd (a b : Nat) : Option Nat := if a + b < 2 ^ 64 then some (a + b) else none

def ensureMinimumPayload (minimumBytes : Option Nat) (available : Nat) : Except IoError Unit :=
  match minimumBytes with
  | none => .error (invalidData "chunk minimum payload size overflows")
  | some minimumBytes =>
    require (minimumBytes ≤ available)
      (invalidData "chunk point count is infeasible for its encoded payload bytes")

def validateFullChunkPointCountFeasible (kind : ChunkKind) (encoding : ChunkEncoding)
    (pointCount availablePayloadBytesAfterT0 : Nat) : Except IoError Unit :=
  match kind, encoding with
  | .float, .rawF64 | .int64, .rawI64 =>
    ensureMinimumPayload (checkedMul pointCount 9) availablePayloadBytesAfterT0
  | .float, .gorilla => do
    let gorilla ← minimumGorillaEncodedLenBytes pointCount
    ensureMinimumPayload (checkedAdd pointCount gorilla) availablePayloadBytesAfterT0
  | .int64, .intDeltaZigZag =>
    ensureMinimumPayload (checkedMul pointCount 2) availablePayloadBytesAfterT0
  | .histogram, .schemaVarLen | .exponentialHistogram, .schemaVarLen
  | .summary, .schemaVarLen =>
    ensureMinimumPayload ((checkedMul pointCount 2).bind (checkedAdd · 2))
      availablePayloadBytesAfterT0
  | _, _ => .ok ()

variable {samples : ChunkSamples} {encoding : ChunkEncoding}

section Feasible
variable {t0 : UInt64} {bs : Bytes}

theorem ensureMinimumPayload_some {m available : Nat} (h : m ≤ available) :
    ensureMinimumPayload (some m) available = .ok () := require_ok.mpr h

theorem encodeRawBody_length {encodeValue : V → Bytes}
    (hvalue : ∀ v, (encodeValue v).length = 8) (t0 : UInt64) (samples : List (UInt64 × V)) :
    samples.length * 9 ≤ (encodeRawBody encodeValue t0 samples).length := by
  refine length_flatMap_ge (fun s => ?_) samples
  have := encodeDelta_length_pos t0 s.1
  rw [encodeRawSample, length_append, hvalue]
  omega

theorem encodeGorillaValues_length {values : List F64} {out : Bytes} (hne : values ≠ [])
    (h : encodeGorillaValues values = .ok out) : (values.length - 1 + 64 + 7) / 8 ≤ out.length := by
  obtain ⟨out', hout', hbits⟩ := encodeGorillaValues_bits hne
  obtain rfl : out' = out := Except.ok.inj (hout'.symm.trans h)
  have hlen := congrArg length hbits
  have hmin := gorillaBits_length hne
  rw [byteBits_length, length_append] at hlen
  omega

variable {encodeValues : List V → Except IoError Bytes}

theorem encodeSplitBody_length
    {samples : List (UInt64 × V)} {m : Nat} (h : encodeSplitBody encodeValues t0 samples = .ok bs)
    (hvalues : ∀ buf, encodeValues (samples.map (·.2)) = .ok buf → m ≤ buf.length) :
    samples.length + m ≤ bs.length := by
  obtain ⟨buf, hbuf, rfl⟩ := encodeSplitBody_ok.mp h
  have h1 := encodeDeltas_length_ge t0 (samples.map (·.1))
  have h2 := hvalues buf hbuf
  rw [length_map] at h1
  rw [length_append]
  omega

theorem encodeSchemaBody_length {T : Type} [SchemaVarLenEncoding T] [LawfulSchemaVarLen T]
    {samples : List (UInt64 × T)} (hn : samples.length < 2 ^ 32) (hbs : bs.length < 2 ^ 32)
    (h : encodeSplitBody encodeSchemaValues t0 samples = .ok bs) :
    samples.length * 2 + 2 ≤ bs.length := by
  have hsplit := encodeSplitBody_length (m := samples.length + 2) h fun buf hbuf => by
    obtain ⟨buf', hbuf', rfl⟩ := encodeSplitBody_ok.mp h
    obtain rfl : buf' = buf := Except.ok.inj (hbuf'.symm.trans hbuf)
    rw [length_append] at hbs
    obtain ⟨hne, -, rfl⟩ := (encodeSchemaValues_ok (by omega) (by rw [length_map]; omega)).mp hbuf
    have := encodeValues_length hne
    rwa [length_map] at this
  omega

theorem feasible_of_encodeBody
    (hpos : samples.timestamps ≠ []) (hn : samples.timestamps.length < 2 ^ 32)
    (hbs : bs.length < 2 ^ 32) (h : encodeBody encoding t0 samples = .ok bs) :
    validateFullChunkPointCountFeasible samples.kind encoding samples.timestamps.length bs.length =
      .ok () := by
  have hmul : ∀ {n k}, n < 2 ^ 32 → k ≤ 9 → checkedMul n k = some (n * k) := fun {n k} hn hk => by
    rw [checkedMul, if_pos]
    calc n * k ≤ n * 9 := Nat.mul_le_mul_left n hk
      _ < 2 ^ 64 := by omega
  have hplain : ∀ {n k}, n < 2 ^ 32 → k ≤ 9 → n * k ≤ bs.length →
      ensureMinimumPayload (checkedMul n k) bs.length = .ok () := fun hn hk hle => by
    rw [hmul hn hk]
    exact ensureMinimumPayload_some hle
  have htyped : ∀ n, n < 2 ^ 32 → n * 2 + 2 ≤ bs.length →
      ensureMinimumPayload ((checkedMul n 2).bind (checkedAdd · 2)) bs.length = .ok () :=
    fun n hn hle => by
      rw [hmul hn (by decide), Option.bind_some, checkedAdd, if_pos (by omega)]
      exact ensureMinimumPayload_some hle
  cases samples with
  | float samples =>
    rw [ChunkSamples.timestamps, length_map] at hn ⊢
    cases encoding with
    | rawF64 =>
      obtain rfl := Except.ok.inj h
      exact hplain hn le_rfl (encodeRawBody_length encodeF64_length t0 samples)
    | gorilla =>
      have hne : samples.map (·.2) ≠ [] := by simpa [ChunkSamples.timestamps] using hpos
      have hlen := encodeSplitBody_length h fun buf hbuf => encodeGorillaValues_length hne hbuf
      rw [length_map] at hlen
      have hmin : minimumGorillaEncodedLenBytes samples.length =
          .ok ((samples.length - 1 + 64 + 7) / 8) := by
        rw [minimumGorillaEncodedLenBytes, if_neg (by simpa using hne), if_pos (by omega)]
      refine except_bind_ok.mpr ⟨_, hmin, ?_⟩
      rw [checkedAdd, if_pos (by omega)]
      exact ensureMinimumPayload_some hlen
    | _ => cases h
  | int64 samples =>
    rw [ChunkSamples.timestamps, length_map] at hn ⊢
    cases encoding with
    | rawI64 =>
      obtain rfl := Except.ok.inj h
      exact hplain hn le_rfl (encodeRawBody_length i64ToLe_length t0 samples)
    | intDeltaZigZag =>
      have hsplit : encodeSplitBody (fun v => .ok (encodeIntDeltas 0 v)) t0 samples = .ok bs := h
      have hlen := encodeSplitBody_length (m := samples.length) hsplit fun buf hbuf => by
        obtain rfl := Except.ok.inj hbuf
        have := encodeIntDeltas_length_ge 0 (samples.map (·.2))
        rwa [length_map] at this
      exact hplain hn (by decide) (by omega)
    | _ => cases h
  | histogram samples | exponentialHistogram samples | summary samples =>
    rw [ChunkSamples.timestamps, length_map] at hn ⊢
    cases encoding with
    | schemaVarLen => exact htyped _ hn (encodeSchemaBody_length hn hbs h)
    | _ => cases h

theorem encodeDeltas_length_le_split
    {samples : List (UInt64 × V)} (h : encodeSplitBody encodeValues t0 samples = .ok bs) :
    (encodeDeltas t0 (samples.map (·.1))).length ≤ bs.length := by
  obtain ⟨buf, -, rfl⟩ := encodeSplitBody_ok.mp h
  rw [length_append]
  exact Nat.le_add_right ..

theorem encodeDeltas_length_le_body (h : encodeBody encoding t0 samples = .ok bs) :
    (encodeDeltas t0 samples.timestamps).length ≤ bs.length := by
  cases samples with
  | float samples =>
    cases encoding with
    | rawF64 => exact Except.ok.inj h ▸ encodeDeltas_length_le_raw encodeF64 t0 samples
    | gorilla => exact encodeDeltas_length_le_split h
    | _ => cases h
  | int64 samples =>
    cases encoding with
    | rawI64 => exact Except.ok.inj h ▸ encodeDeltas_length_le_raw i64ToLe t0 samples
    | intDeltaZigZag =>
      have hsplit : encodeSplitBody (fun v => .ok (encodeIntDeltas 0 v)) t0 samples = .ok bs := h
      exact encodeDeltas_length_le_split hsplit
    | _ => cases h
  | histogram samples | exponentialHistogram samples | summary samples =>
    cases encoding with
    | schemaVarLen => exact encodeDeltas_length_le_split h
    | _ => cases h

end Feasible

def optionalF64BitsEqual : Option F64 → Option F64 → Bool
  | some left, some right => left.bits = right.bits
  | none, none => true
  | _, _ => false

theorem optionalF64BitsEqual_iff {a b : Option F64} : optionalF64BitsEqual a b ↔ a = b := by
  rcases a with _ | ⟨⟨a⟩⟩ <;> rcases b with _ | ⟨⟨b⟩⟩ <;> simp [optionalF64BitsEqual]

def verifyScalarChunkRedundantMetadata (header : DecodedChunkHeader) (lane : Bytes) :
    Except IoError Unit := do
  require (header.flags = 0) (invalidData "scalar chunk header flags must be zero")
  require (lane = []) (invalidData "scalar chunk has a typed scalar lane")

variable {rows : List DecodedTypedScalarLaneRow}

section Verify
variable {T : Type} [TypedCounterValue T]

/-- The row callback: row number `observed` against the native sample of that number. -/
def checkLaneRow (values : List (UInt64 × T)) (observed : Nat) (row : DecodedTypedScalarLaneRow) :
    Except IoError Nat :=
  match values[observed]? with
  | none => .error (invalidData "typed scalar lane has more rows than the native payload")
  | some (expectedTimestampMs, expectedValue) => do
    require (row.timestampMs = expectedTimestampMs ∧
        row.metadata = TypedCounterValue.metadata expectedValue ∧
        row.count = TypedCounterValue.count expectedValue ∧
        optionalF64BitsEqual row.sum (TypedCounterValue.sum expectedValue))
      (invalidData "typed scalar lane row disagrees with the native payload")
    require (observed + 1 < 2 ^ 64) (invalidData "typed scalar lane row count overflows")
    return observed + 1

def verifyTypedChunkRedundantMetadata (crc32c : Bytes → UInt32) (header : DecodedChunkHeader)
    (lane : Bytes) (values : List (UInt64 × T)) : Except IoError Unit := do
  require (header.flags = typedChunkFlags (values.map (TypedCounterValue.metadata ·.2)))
    (invalidData "typed chunk header flags disagree with native metadata")
  if lane = [] then return ()
  else
    let observed ← forEachTypedScalarLaneRow crc32c header lane (checkLaneRow values) 0
    require (observed = values.length)
      (invalidData "typed scalar lane has fewer rows than the native payload")

variable {values : List (UInt64 × T)}

theorem checkLaneRow_ok {i k : Nat} {row : DecodedTypedScalarLaneRow} :
    checkLaneRow values i row = .ok k ↔
      (values.map laneRow)[i]? = some row ∧ i + 1 < 2 ^ 64 ∧ i + 1 = k := by
  unfold checkLaneRow
  rw [getElem?_map]
  cases values[i]? with
  | none => simp
  | some sample =>
    obtain ⟨t, v⟩ := sample
    obtain ⟨t', md, c, s⟩ := row
    simp only [require_bind_ok, except_pure_ok, optionalF64BitsEqual_iff,
      Option.map_some, Option.some.injEq, laneRow, DecodedTypedScalarLaneRow.mk.injEq]
    exact and_congr_left fun _ => by simp only [eq_comm]

omit [TypedCounterValue T] in
theorem cons_prefix_drop_iff {α : Type} {a : α} {as l : List α} {i : Nat} :
    a :: as <+: l.drop i ↔ l[i]? = some a ∧ as <+: l.drop (i + 1) := by
  by_cases hlt : i < l.length
  · rw [drop_eq_getElem_cons hlt, cons_prefix_cons, getElem?_eq_getElem hlt,
      Option.some_inj, eq_comm]
  · rw [drop_eq_nil_of_le (by omega), getElem?_eq_none (by omega)]
    simp

theorem foldlM_checkLaneRow_ok {i k : Nat} (hbound : i + rows.length < 2 ^ 64) :
    rows.foldlM (checkLaneRow values) i = .ok k ↔
      rows <+: (values.map laneRow).drop i ∧ i + rows.length = k := by
  induction rows generalizing i with
  | nil => simp [pure, Except.pure]
  | cons row rows ih =>
    rw [length_cons] at hbound ⊢
    simp only [foldlM_cons, except_bind_ok, checkLaneRow_ok, cons_prefix_drop_iff]
    constructor
    · rintro ⟨_, ⟨hrow, -, rfl⟩, hrest⟩
      obtain ⟨hrows, rfl⟩ := (ih (by omega)).mp hrest
      exact ⟨⟨hrow, hrows⟩, by omega⟩
    · rintro ⟨⟨hrow, hrows⟩, rfl⟩
      exact ⟨i + 1, ⟨hrow, by omega, rfl⟩, (ih (by omega)).mpr ⟨hrows, by omega⟩⟩

theorem verifyTypedChunkRedundantMetadata_ok {crc32c : Bytes → UInt32}
    {header : DecodedChunkHeader} {lane : Bytes} {u : Unit} :
    verifyTypedChunkRedundantMetadata crc32c header lane values = .ok u ↔
      header.flags = typedChunkFlags ((values.map laneRow).map (·.metadata)) ∧
        (lane = [] ∨ lane ≠ [] ∧ LaneOf crc32c header lane (values.map laneRow)) := by
  have hflags : (values.map laneRow).map (·.metadata) =
      values.map (TypedCounterValue.metadata ·.2) := by
    rw [map_map]
    rfl
  rw [verifyTypedChunkRedundantMetadata, hflags]
  simp only [require_bind_ok]
  refine and_congr_right fun _ => ?_
  split
  · rename_i hempty
    simp [hempty, pure, Except.pure]
  rename_i hne
  simp only [hne, not_false_eq_true, false_or, ne_eq, true_and, except_bind_ok, require_ok,
    forEachTypedScalarLaneRow_ok]
  constructor
  · rintro ⟨_, ⟨rows, hlane, hfold⟩, rfl⟩
    have hcount := hlane.count
    have hpoints := header.numPoints.toNat_lt
    obtain ⟨hpre, hlen⟩ := (foldlM_checkLaneRow_ok (by omega)).mp hfold
    obtain rfl : rows = values.map laneRow :=
      hpre.eq_of_length (by rw [drop_zero, length_map]; omega)
    exact hlane
  intro hlane
  have hcount := hlane.count
  have hpoints := header.numPoints.toNat_lt
  refine ⟨_, ⟨_, hlane, (foldlM_checkLaneRow_ok (by omega)).mpr
    ⟨by rw [drop_zero], rfl⟩⟩, ?_⟩
  rw [length_map]
  omega

end Verify

def samplesDisagree : IoError :=
  invalidData "decoded chunk samples disagree with the redundant-metadata kind"

def verifyChunkScalarLaneAndFlags (crc32c : Bytes → UInt32) (recordBytes : Bytes)
    (samples : ChunkSamples) : Except IoError Unit := do
  let header ← decodeChunkHeader.value recordBytes
  require (chunkHeaderLen ≤ header.headerLen ∧ header.headerLen ≤ recordBytes.length)
    (invalidData "chunk header length is invalid while verifying redundant metadata")
  let lane := slice recordBytes chunkHeaderLen header.headerLen
  match samples with
  | .float _ =>
    require (header.kind = .float) samplesDisagree
    verifyScalarChunkRedundantMetadata header lane
  | .int64 _ =>
    require (header.kind = .int64) samplesDisagree
    verifyScalarChunkRedundantMetadata header lane
  | .histogram values =>
    require (header.kind = .histogram) samplesDisagree
    verifyTypedChunkRedundantMetadata crc32c header lane values
  | .exponentialHistogram values =>
    require (header.kind = .exponentialHistogram) samplesDisagree
    verifyTypedChunkRedundantMetadata crc32c header lane values
  | .summary values =>
    require (header.kind = .summary) samplesDisagree
    verifyTypedChunkRedundantMetadata crc32c header lane values

namespace ChunkSamples

def laneRows : ChunkSamples → Option (List DecodedTypedScalarLaneRow)
  | .float _ | .int64 _ => none
  | .histogram samples => some (samples.map laneRow)
  | .exponentialHistogram samples => some (samples.map laneRow)
  | .summary samples => some (samples.map laneRow)

def flags (samples : ChunkSamples) : UInt16 :=
  samples.laneRows.elim 0 fun rows => typedChunkFlags (rows.map (·.metadata))

theorem laneRows_timestamps
    (h : samples.laneRows = some rows) : rows.map (·.timestampMs) = samples.timestamps := by
  cases samples <;> simp only [laneRows, reduceCtorEq, Option.some.injEq] at h <;> subst h <;>
    exact map_map

theorem laneRows_flags (h : samples.laneRows = some rows) :
    typedChunkFlags (rows.map (·.metadata)) = samples.flags := by
  rw [flags, h, Option.elim_some]

theorem laneRows_encoding {t0 : UInt64} {bs : Bytes} (h : samples.laneRows = some rows)
    (henc : encodeBody encoding t0 samples = .ok bs) :
    encoding = .schemaVarLen ∧ samples.kind.isTyped := by
  cases samples with
  | float _ => cases h
  | int64 _ => cases h
  | _ => cases encoding <;> first | exact ⟨rfl, rfl⟩ | cases henc

end ChunkSamples

def LaneFor (crc32c : Bytes → UInt32) (t0Ms : UInt64) (samples : ChunkSamples) (lane : Bytes) :
    Prop :=
  lane = [] ∨ ∃ rows, samples.laneRows = some rows ∧ (encodeLaneBody t0Ms rows).length < 2 ^ 32 ∧
    lane = encodeLane crc32c (encodeLaneBody t0Ms rows)

section VerifyRecord
variable {crc32c : Bytes → UInt32} {header : DecodedChunkHeader} {lane : Bytes}
  {d : DecodedChunkPayload} {samples : ChunkSamples} {u : Unit}

theorem verifyScalarChunkRedundantMetadata_ok :
    verifyScalarChunkRedundantMetadata header lane = .ok u ↔ header.flags = 0 ∧ lane = [] := by
  simp [verifyScalarChunkRedundantMetadata, except_bind_ok, require_ok]

theorem verifyChunkScalarLaneAndFlags_ok (hfits : RecordFits d lane) :
    verifyChunkScalarLaneAndFlags crc32c (encodeChunkRecord crc32c d lane) samples = .ok u ↔
      d.kind = samples.kind ∧ d.flags = samples.flags ∧ (lane = [] ∨ lane ≠ [] ∧
        ∃ rows, samples.laneRows = some rows ∧
          LaneOf crc32c (recordHeader crc32c d lane) lane rows) := by
  have hlen : chunkHeaderLen ≤ (recordHeader crc32c d lane).headerLen ∧
      (recordHeader crc32c d lane).headerLen ≤ (encodeChunkRecord crc32c d lane).length := by
    rw [encodeChunkRecord_length]
    exact ⟨Nat.le_add_right .., Nat.le_add_right ..⟩
  simp only [verifyChunkScalarLaneAndFlags, decodeChunkHeader_record hfits, except_bind_ok,
    Except.ok.injEq, exists_eq_left', require_ok, exists_const, hlen, and_self, true_and,
    slice_lane]
  cases samples with
  | float _ | int64 _ =>
    simp only [except_bind_ok, require_ok, exists_const, verifyScalarChunkRedundantMetadata_ok,
      ChunkSamples.laneRows, ChunkSamples.flags, ChunkSamples.kind, Option.elim_none, reduceCtorEq,
      false_and, and_false, or_false]
    rfl
  | histogram _ | exponentialHistogram _ | summary _ =>
    simp only [except_bind_ok, require_ok, exists_const, verifyTypedChunkRedundantMetadata_ok,
      ChunkSamples.laneRows, ChunkSamples.flags, ChunkSamples.kind, Option.elim_some,
      Option.some.injEq, exists_eq_left']
    rfl

end VerifyRecord

def checkedU32 (len : Nat) (message : String) : Except IoError UInt32 :=
  if len < 2 ^ 32 then .ok (UInt32.ofNat len) else .error (invalidData message)

theorem checkedU32_ok {len : Nat} {message : String} {x : UInt32} :
    checkedU32 len message = .ok x ↔ len < 2 ^ 32 ∧ UInt32.ofNat len = x := by
  unfold checkedU32
  split <;> simp_all

def validateDecodedSampleTimestamps (numPoints : UInt32) (minTimeMs maxTimeMs : UInt64)
    (samples : ChunkSamples) : Except IoError Unit :=
  validateTimestampIter numPoints minTimeMs maxTimeMs samples.timestamps

def decodeChunkRecordWithLayout (crc32c : Bytes → UInt32) (payload : Bytes) :
    Except IoError (ChunkRecord × DecodedChunkLayout) := do
  let decoded ← decodeChunkPayload crc32c payload
  let (t0Ms, body) ← readU64 decoded.payload
  require (decoded.numPoints ≠ 0) (invalidData "chunk has no points")
  require (t0Ms = decoded.minTimeMs)
    (invalidData "chunk timestamp base disagrees with min_time_ms")
  validateFullChunkPointCountFeasible decoded.kind decoded.encoding decoded.numPoints.toNat
    body.length
  let ((samples, layout), _) ← decodeChunkSamples decoded.kind decoded.encoding
    decoded.numPoints.toNat t0Ms decoded.payload.length body
  validateDecodedSampleTimestamps decoded.numPoints decoded.minTimeMs decoded.maxTimeMs samples
  verifyChunkScalarLaneAndFlags crc32c payload samples
  require (decoded.payload.length + chunkHeaderLen ≤ payload.length)
    (invalidData "chunk header size underflows")
  let scalarLaneBytes ← checkedU32 (payload.length - decoded.payload.length - chunkHeaderLen)
    "scalar lane length exceeds u32"
  let payloadBytes ← checkedU32 decoded.payload.length "chunk payload length exceeds u32"
  let timestampBaseBytes ← checkedU32 (decoded.payload.length - body.length)
    "timestamp base length exceeds u32"
  let timestampDeltaBytes ← checkedU32 layout.timestampDeltaBytes
    "timestamp delta length exceeds u32"
  let valueBytes ← checkedU32 layout.valueBytes "value length exceeds u32"
  return ({ seriesRef := decoded.seriesRef, kind := decoded.kind,
            minTimeMs := decoded.minTimeMs, maxTimeMs := decoded.maxTimeMs, samples },
          { kind := decoded.kind, encoding := decoded.encoding, flags := decoded.flags,
            numPoints := decoded.numPoints, commonHeaderBytes := UInt32.ofNat chunkHeaderLen,
            scalarLaneBytes, payloadBytes, timestampBaseBytes, timestampDeltaBytes, valueBytes })

def decodeChunkRecord (crc32c : Bytes → UInt32) (payload : Bytes) : Except IoError ChunkRecord :=
  (decodeChunkRecordWithLayout crc32c payload).map (·.1)

namespace ChunkRecord

def stored (self : ChunkRecord) (encoding : ChunkEncoding) (body : Bytes) :
    DecodedChunkPayload :=
  { kind := self.samples.kind, encoding, flags := self.samples.flags,
    seriesRef := self.seriesRef, minTimeMs := self.minTimeMs, maxTimeMs := self.maxTimeMs,
    numPoints := UInt32.ofNat self.samples.timestamps.length,
    payload := u64ToLe self.minTimeMs ++ body }

def layout (self : ChunkRecord) (encoding : ChunkEncoding) (body lane : Bytes) :
    DecodedChunkLayout :=
  let sizes := bodyLayout self.minTimeMs self.samples.timestamps body
  { kind := self.samples.kind, encoding, flags := self.samples.flags,
    numPoints := UInt32.ofNat self.samples.timestamps.length,
    commonHeaderBytes := UInt32.ofNat chunkHeaderLen, scalarLaneBytes := UInt32.ofNat lane.length,
    payloadBytes := UInt32.ofNat (8 + body.length), timestampBaseBytes := 8,
    timestampDeltaBytes := UInt32.ofNat sizes.timestampDeltaBytes,
    valueBytes := UInt32.ofNat sizes.valueBytes }

structure StoredAs (record : ChunkRecord) (crc32c : Bytes → UInt32) (encoding : ChunkEncoding)
    (body lane : Bytes) : Prop where
  kind : record.samples.kind = record.kind
  range : TimeRange record.minTimeMs record.maxTimeMs record.samples.timestamps
  points : record.samples.timestamps.length < 2 ^ 32
  encoded : encodeBody encoding record.minTimeMs record.samples = .ok body
  redundant : LaneFor crc32c record.minTimeMs record.samples lane
  fits : RecordFits (record.stored encoding body) lane

variable {record : ChunkRecord} {crc32c : Bytes → UInt32} {encoding : ChunkEncoding}
  {body lane : Bytes}

section
variable (h : record.StoredAs crc32c encoding body lane)
include h

theorem StoredAs.numPoints_toNat :
    (record.stored encoding body).numPoints.toNat = record.samples.timestamps.length :=
  UInt32.toNat_ofNat_of_lt' h.points

theorem StoredAs.numPoints_toNat_ne_zero : (record.stored encoding body).numPoints.toNat ≠ 0 := by
  rw [h.numPoints_toNat]
  exact fun hzero => h.range.ne_nil (length_eq_zero_iff.mp hzero)

theorem StoredAs.numPoints_ne_zero : (record.stored encoding body).numPoints ≠ 0 :=
  fun hzero => h.numPoints_toNat_ne_zero (by rw [hzero]; rfl)

theorem StoredAs.body_length : 8 + body.length < 2 ^ 32 := by
  have hfits := h.fits.2
  rwa [stored, length_append, u64ToLe_length] at hfits

theorem StoredAs.lane_verifies :
    lane = [] ∨ lane ≠ [] ∧ ∃ rows, record.samples.laneRows = some rows ∧
      LaneOf crc32c (recordHeader crc32c (record.stored encoding body) lane) lane rows := by
  by_cases hempty : lane = []
  · exact .inl hempty
  obtain hnone | ⟨rows, hrows, hshort, hlane⟩ := h.redundant
  · exact absurd hnone hempty
  obtain ⟨hencoding, htyped⟩ := ChunkSamples.laneRows_encoding hrows h.encoded
  have htimes := ChunkSamples.laneRows_timestamps hrows
  refine .inr ⟨hempty, rows, hrows, ⟨?_, ?_, ChunkSamples.laneRows_flags hrows⟩,
    ⟨h.numPoints_ne_zero, hencoding, htyped⟩, hshort, hlane⟩
  · change rows.length = (record.stored encoding body).numPoints.toNat
    rw [h.numPoints_toNat, ← htimes, length_map]
  · rw [htimes]
    exact h.range

end

end ChunkRecord

section Decode
variable {crc32c : Bytes → UInt32} {bs : Bytes} {record : ChunkRecord}
  {layout : DecodedChunkLayout}

theorem decodeChunkRecordWithLayout_ok :
    decodeChunkRecordWithLayout crc32c bs = .ok (record, layout) ↔
      ∃ encoding body lane, record.StoredAs crc32c encoding body lane ∧
        bs = encodeChunkRecord crc32c (record.stored encoding body) lane ∧
        layout = record.layout encoding body lane := by
  simp only [decodeChunkRecordWithLayout, except_bind_ok, decodeChunkPayload_ok, Prod.exists,
    readU64_ok, require_ok, exists_const, except_pure_ok, checkedU32_ok, Prod.mk.injEq,
    validateDecodedSampleTimestamps, validateTimestampIter_ok]
  constructor
  · rintro ⟨d, ⟨lane, hfits, rfl⟩, t0, body, hpayload, hpoints, rfl, _, -, samples, sizes, rest,
      hsamples, ⟨hcount, hrange⟩, _, hverify, -, laneBytes, ⟨-, hlaneBytes⟩, payloadBytes,
      ⟨-, hpayloadBytes⟩, baseBytes, ⟨-, hbaseBytes⟩, deltaBytes, ⟨-, hdeltaBytes⟩, valueBytes,
      ⟨-, hvalueBytes⟩, rfl, rfl⟩
    have hlen : d.payload.length = 8 + body.length := by
      rw [hpayload, length_append, u64ToLe_length]
    have hnonzero : d.numPoints.toNat ≠ 0 := by
      intro hzero
      exact hpoints (UInt32.toNat_inj.mp hzero)
    obtain ⟨hkind, ⟨-, -, hencode⟩, rfl, rfl⟩ :=
      (decodeChunkSamples_ok hnonzero d.numPoints.toNat_lt hlen hfits.2).mp hsamples
    obtain ⟨-, hflags, hlane⟩ := (verifyChunkScalarLaneAndFlags_ok hfits).mp hverify
    have hnum : d.numPoints = UInt32.ofNat samples.timestamps.length := by
      rw [hcount, UInt32.ofNat_toNat]
    set record : ChunkRecord := ⟨d.seriesRef, d.kind, d.minTimeMs, d.maxTimeMs, samples⟩
      with hrecord
    have hstored : record.stored d.encoding body = d := by
      obtain ⟨kind, encoding, flags, series, min, max, points, payload⟩ := d
      simp_all [ChunkRecord.stored]
    refine ⟨d.encoding, body, lane, ⟨hkind, hrange, hcount ▸ d.numPoints.toNat_lt, hencode, ?_, by
      rwa [hstored]⟩, by rw [hstored], ?_⟩
    · obtain hempty | ⟨-, rows, hrows, hlane⟩ := hlane
      · exact .inl hempty
      · exact .inr ⟨rows, hrows, hlane.short, hlane.bytes⟩
    have hlaneLen : (encodeChunkRecord crc32c d lane).length - d.payload.length - chunkHeaderLen =
        lane.length := by
      rw [encodeChunkRecord_length]
      omega
    rw [hlaneLen] at hlaneBytes
    rw [hlen] at hpayloadBytes
    rw [hlen, Nat.add_sub_cancel] at hbaseBytes
    rw [← hlaneBytes, ← hpayloadBytes, ← hbaseBytes, ← hdeltaBytes, ← hvalueBytes, hnum, hflags,
      ← hkind]
    rfl
  rintro ⟨encoding, body, lane, h, rfl, rfl⟩
  have hbody := h.body_length
  have hlen : (record.stored encoding body).payload.length = 8 + body.length := by
    rw [ChunkRecord.stored, length_append, u64ToLe_length]
  have hpoints := h.numPoints_toNat
  have hlt := (record.stored encoding body).numPoints.toNat_lt
  have hfeasible := feasible_of_encodeBody h.range.ne_nil h.points (by omega) h.encoded
  rw [← hpoints] at hfeasible
  have hsamples := (decodeChunkSamples_ok h.numPoints_toNat_ne_zero hlt hlen h.fits.2).mpr
    ⟨rfl, ⟨hpoints.symm, h.range.min_le, h.encoded⟩, rfl, rfl⟩
  have hverify := (verifyChunkScalarLaneAndFlags_ok (u := ()) h.fits).mpr ⟨rfl, rfl, h.lane_verifies⟩
  have hdeltas := encodeDeltas_length_le_body h.encoded
  refine ⟨_, ⟨lane, h.fits, rfl⟩, record.minTimeMs, body, rfl, h.numPoints_ne_zero, rfl, (),
    hfeasible, record.samples, _, [], hsamples, ⟨hpoints.symm, h.range⟩, (), hverify, ?_, _,
    ⟨?_, rfl⟩, _, ⟨h.fits.2, rfl⟩, _, ⟨?_, rfl⟩, _, ⟨?_, rfl⟩, _, ⟨?_, rfl⟩, ?_, ?_⟩
  · rw [encodeChunkRecord_length]
    omega
  · have := h.fits.1
    rw [encodeChunkRecord_length]
    omega
  · rw [hlen]
    omega
  · exact lt_of_le_of_lt hdeltas (by omega)
  · exact lt_of_le_of_lt (Nat.sub_le ..) (show body.length < 2 ^ 32 by omega)
  · obtain ⟨series, kind, min, max, samples⟩ := record
    exact congrArg (ChunkRecord.mk series · min max samples) h.kind
  have hlaneLen : (encodeChunkRecord crc32c (record.stored encoding body) lane).length -
      (record.stored encoding body).payload.length - chunkHeaderLen = lane.length := by
    rw [encodeChunkRecord_length]
    omega
  rw [hlaneLen, hlen, Nat.add_sub_cancel]
  rfl

end Decode

end Chronoxide
