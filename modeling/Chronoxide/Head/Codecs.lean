import Chronoxide.Codec.Layout
import Chronoxide.Encoding.Chimp
import Chronoxide.Encoding.Gorilla
import Chronoxide.Encoding.Varlen
import Chronoxide.Head.EncodedSeries
import Chronoxide.Chunk.Body

/-! The value codecs of head blocks (`block.rs`, `encoding/varlen.rs`, `head/types.rs`), and that
each reads back what it took. -/

namespace Chronoxide
open Codec

theorem BlockCodec.Taken.ne_nil {V : Type} {C : BlockCodec V} {vs : List V} {s : C.State}
    (h : C.Taken vs s) : vs ≠ [] := by
  cases h <;> simp

/-- A codec tracks a relation that its first value sets up, that every push keeps, and that fixes
what is read back. -/
theorem BlockCodec.lossless_of_tracks {V : Type} {C : BlockCodec V}
    (Tracks : C.State → List V → Prop)
    (hnew : ∀ {v s}, C.new v = .ok s → Tracks s [v])
    (hpush : ∀ {vs v s t}, Tracks s vs → C.push s v = .ok t → Tracks t (vs ++ [v]))
    (hbytes : ∀ s, C.snapshotBytes s = C.intoBytes s)
    (hdecode : ∀ {vs s}, Tracks s vs → vs ≠ [] → vs.length ≤ counterMax 32 →
      (C.intoBytes s).length ≤ isizeMax → C.decodeValues (C.intoBytes s) vs.length = .ok vs) :
    C.Lossless := by
  intro vs s bytes htaken hwrote hlen hfits
  have htracks : Tracks s vs := by
    clear hwrote hlen hfits
    induction htaken with
    | new h => exact hnew h
    | push _ h ih => exact hpush ih h
  obtain rfl : bytes = C.intoBytes s := by
    rcases hwrote with h | h
    · exact h
    · rw [h, hbytes]
  exact hdecode htracks htaken.ne_nil hlen hfits

/-- What a codec whose first value is a push like any other has taken is the fold of its pushes. -/
theorem BlockCodec.lossless_of_foldlM {V : Type} {C : BlockCodec V} (init : C.State)
    (hnew : ∀ v, C.new v = C.push init v) (hbytes : ∀ s, C.snapshotBytes s = C.intoBytes s)
    (hdecode : ∀ {vs s}, vs.foldlM C.push init = .ok s → vs ≠ [] → vs.length ≤ counterMax 32 →
      (C.intoBytes s).length ≤ isizeMax → C.decodeValues (C.intoBytes s) vs.length = .ok vs) :
    C.Lossless := by
  refine lossless_of_tracks (fun s vs => vs.foldlM C.push init = .ok s) ?_ ?_ hbytes hdecode
  · intro v s hs
    rw [hnew] at hs
    exact except_bind_ok.mpr ⟨s, hs, rfl⟩
  · intro vs v s t hs ht
    rw [List.foldlM_append]
    exact except_bind_ok.mpr ⟨s, hs, except_bind_ok.mpr ⟨t, ht, rfl⟩⟩

def rawBlockValueBytes : Nat := 8

def decodeRawValues {V : Type} (countMismatchError : String) (fromLeBytes : Bytes → V)
    (buf : Bytes) (count : Nat) : Except IoError (List V) := do
  require (buf.length = min (count * rawBlockValueBytes) (counterMax 64))
    (invalidData countMismatchError)
  return (chunksExact rawBlockValueBytes buf).map fromLeBytes

/-- A codec that keeps the values and encodes them when the block is sealed or read. -/
def deferredCodec {V : Type} (name : String) (encode : List V → Bytes)
    (decodeValues : Bytes → Nat → Except IoError (List V)) : BlockCodec V where
  name
  State := List V
  new first := .ok [first]
  push values value := .ok (values ++ [value])
  snapshotBytes := encode
  intoBytes := encode
  decodeValues

theorem deferredCodec_lossless {V : Type} {name : String} {encode : List V → Bytes}
    {decodeValues : Bytes → Nat → Except IoError (List V)}
    (h : ∀ vs, vs ≠ [] → (encode vs).length ≤ isizeMax →
      decodeValues (encode vs) vs.length = .ok vs) :
    (deferredCodec name encode decodeValues).Lossless := by
  refine BlockCodec.lossless_of_tracks (fun (values : List V) vs => values = vs) ?_ ?_
    (fun _ => rfl) ?_
  · intro v s hs
    exact (Except.ok.inj hs).symm
  · rintro vs v s t rfl ht
    exact (Except.ok.inj ht).symm
  · rintro vs s rfl hne - hfits
    exact h _ hne hfits

def rawCodec {V : Type} (name countMismatchError : String) (toLeBytes : V → Bytes)
    (fromLeBytes : Bytes → V) : BlockCodec V :=
  deferredCodec name (fun values => values.flatMap toLeBytes)
    (decodeRawValues countMismatchError fromLeBytes)

def floatRawCodec : BlockCodec F64 :=
  rawCodec "chronoxide_core::storage::block::RawCodec<f64>" "raw float value count mismatch"
    encodeF64 f64FromLe

def intRawCodec : BlockCodec Int64 :=
  rawCodec "chronoxide_core::storage::block::RawCodec<i64>" "raw int value count mismatch"
    i64ToLe i64FromLe

theorem decodeRawValues_flatMap {V : Type} {message : String} {toLeBytes : V → Bytes}
    {fromLeBytes : Bytes → V} (hlen : ∀ v, (toLeBytes v).length = rawBlockValueBytes)
    (hback : ∀ v, fromLeBytes (toLeBytes v) = v) {vs : List V}
    (hfits : (vs.flatMap toLeBytes).length ≤ isizeMax) :
    decodeRawValues message fromLeBytes (vs.flatMap toLeBytes) vs.length = .ok vs := by
  have hsize : (vs.flatMap toLeBytes).length = vs.length * rawBlockValueBytes :=
    length_flatMap_eq hlen vs
  have hchunks : chunksExact rawBlockValueBytes (vs.flatMap toLeBytes) = vs.map toLeBytes :=
    chunksExact_flatten (by decide) (List.forall_mem_map.mpr fun v _ => hlen v)
  have hmax : isizeMax ≤ counterMax 64 := by decide
  refine except_bind_ok.mpr ⟨(), require_ok.mpr (by omega), except_pure_ok.mpr ?_⟩
  rw [hchunks, List.map_map]
  conv_rhs => rw [← List.map_id vs]
  exact List.map_congr_left fun v _ => hback v

theorem rawCodec_lossless {V : Type} {name message : String} {toLeBytes : V → Bytes}
    {fromLeBytes : Bytes → V} (hlen : ∀ v, (toLeBytes v).length = rawBlockValueBytes)
    (hback : ∀ v, fromLeBytes (toLeBytes v) = v) :
    (rawCodec name message toLeBytes fromLeBytes).Lossless :=
  deferredCodec_lossless fun _ _ hfits => decodeRawValues_flatMap hlen hback hfits

theorem floatRawCodec_lossless : floatRawCodec.Lossless :=
  rawCodec_lossless encodeF64_length fun v => (f64FromLe_eq_iff (encodeF64_length v) v).mpr rfl

theorem intRawCodec_lossless : intRawCodec.Lossless :=
  rawCodec_lossless i64ToLe_length fun v => (i64FromLe_eq_iff (i64ToLe_length v) v).mpr rfl

def floatGorillaCodec : BlockCodec F64 where
  name := "chronoxide_core::storage::block::FloatGorillaCodec"
  State := GorillaEncoder
  new first := GorillaEncoder.new.push first
  push := GorillaEncoder.push
  snapshotBytes := GorillaEncoder.finish
  intoBytes := GorillaEncoder.finish
  decodeValues := decodeGorillaValues

theorem floatGorillaCodec_lossless : floatGorillaCodec.Lossless := by
  refine BlockCodec.lossless_of_foldlM GorillaEncoder.new (fun _ => rfl) (fun _ => rfl) ?_
  intro vs e he hne hlen _
  change decodeGorillaValues e.finish vs.length = .ok vs
  have hcount : vs.length + 70 < 2 ^ 64 := by
    have : counterMax 32 < 2 ^ 32 := by decide
    omega
  have hpos : vs.length ≠ 0 := fun h => hne (List.length_eq_zero_iff.mp h)
  refine (decodeGorillaValues_ok hpos hcount).mpr ⟨rfl, ?_⟩
  rw [encodeGorillaValues, if_neg hne]
  exact except_bind_ok.mpr ⟨e, he, rfl⟩

def floatChimp128BaselineDeferredCodec : BlockCodec F64 :=
  deferredCodec "chronoxide_core::storage::block::FloatChimp128BaselineDeferredCodec"
    (fun values => (encodeChimp128BaselineValues values).toOption.getD [])
    decodeChimp128BaselineValues

theorem floatChimp128BaselineDeferredCodec_lossless :
    floatChimp128BaselineDeferredCodec.Lossless := by
  refine deferredCodec_lossless fun vs hne _ => ?_
  obtain ⟨last, hpushes, hdecode⟩ := Chimp128BaselineEncoder.exists_pushes hne
  rw [encodeChimp128BaselineValues_of_pushes hne hpushes]
  exact hdecode

structure IntDeltaCodec where
  values : Bytes
  lastValue : Int64

def decodeIntValues (buf : Bytes) (count : Nat) : Except IoError (List Int64) :=
  let read : Reader (List Int64) := do
    let values ← decodeIntDeltas count 0
    Parser.atEnd (invalidData "value buffer has trailing bytes")
    return values
  read.value buf

def intDeltaCodec : BlockCodec Int64 where
  name := "chronoxide_core::storage::block::IntDeltaCodec"
  State := IntDeltaCodec
  new first := .ok ⟨encodeVarint (encodeZigzagI64 first), first⟩
  push codec value :=
    .ok ⟨codec.values ++ encodeVarint (encodeZigzagI64 (value - codec.lastValue)), value⟩
  snapshotBytes codec := codec.values
  intoBytes codec := codec.values
  decodeValues := decodeIntValues

theorem encodeIntDeltas_append (prev : Int64) (vs : List Int64) (v : Int64) :
    encodeIntDeltas prev (vs ++ [v]) = encodeIntDeltas prev vs ++
      encodeVarint (encodeZigzagI64 (v - vs.getLast?.getD prev)) := by
  induction vs generalizing prev with
  | nil => simp [encodeIntDeltas]
  | cons w vs ih =>
    rw [List.cons_append, encodeIntDeltas, ih, encodeIntDeltas, List.append_assoc,
      List.getLast?_cons, Option.getD_some]

theorem intDeltaCodec_lossless : intDeltaCodec.Lossless := by
  refine BlockCodec.lossless_of_tracks
    (fun (codec : IntDeltaCodec) vs =>
      codec.values = encodeIntDeltas 0 vs ∧ vs.getLast? = some codec.lastValue)
    ?_ ?_ (fun _ => rfl) ?_
  · intro v s hs
    obtain rfl := Except.ok.inj hs
    refine ⟨?_, rfl⟩
    rw [encodeIntDeltas, encodeIntDeltas, List.append_nil]
    rw [Int64.sub_zero]
  · rintro vs v s t ⟨hvalues, hlast⟩ ht
    obtain rfl := Except.ok.inj ht
    refine ⟨?_, List.getLast?_concat⟩
    rw [encodeIntDeltas_append, hlast, ← hvalues]
    rfl
  rintro vs s ⟨hvalues, -⟩ - - -
  change decodeIntValues s.values vs.length = .ok vs
  rw [decodeIntValues, Parser.value_ok]
  simp only [Parser.bind_ok, decodeIntDeltas_ok, Parser.atEnd_ok, Parser.pure_ok]
  exact ⟨[], vs, [], ⟨rfl, by rw [hvalues, List.append_nil]⟩, (), [], ⟨rfl, rfl⟩, rfl, rfl⟩

def decodeWholeValue {T : Type} (decode : Reader T) (buf : Bytes) : Except IoError T :=
  decodeWhole decode "value buffer has trailing bytes" buf

namespace HistogramValue

def encodeFields (self : HistogramValue) : Bytes :=
  encodeTypedMetadata self.metadata ++ (encodeVarint self.count ++ (encodeOptF64 self.sum ++
    (encodeOptF64 self.min ++ (encodeOptF64 self.max ++
      (encodeLen self.explicitBounds.length ++ (encodeF64s self.explicitBounds ++
        (encodeLen self.bucketCounts.length ++ encodeVarints self.bucketCounts)))))))

def encodeInto (self : HistogramValue) : Except IoError Bytes := do
  validateHistogramShape self.explicitBounds self.bucketCounts self.count .invalidInput
  return self.encodeFields

def decodeFields : Reader HistogramValue := do
  let metadata ← decodeTypedMetadata
  let count ← decodeVarint
  let sum ← decodeOptF64
  let min ← decodeOptF64
  let max ← decodeOptF64
  let boundsLen ← decodeLen
  let explicitBounds ← decodeItems decodeF64 boundsLen 8 "histogram explicit bounds"
  let countsLen ← decodeLen
  let bucketCounts ← decodeItems decodeVarint countsLen 1 "histogram bucket counts"
  Parser.lift (validateHistogramShape explicitBounds bucketCounts count .invalidData)
  return { count, sum, min, max, metadata, explicitBounds, bucketCounts }

instance : VarLenEncoding HistogramValue := ⟨encodeInto, decodeWholeValue decodeFields⟩

theorem validateShape_kind {bounds : List F64} {counts : List UInt64} {count : UInt64}
    {kind kind' : ErrorKind} (h : validateHistogramShape bounds counts count kind = .ok ()) :
    validateHistogramShape bounds counts count kind' = .ok () := by
  obtain ⟨_, hschema, htotal⟩ := except_bind_ok.mp h
  exact except_bind_ok.mpr ⟨(), validateHistogramSchemaShape_ok.mpr
    (validateHistogramSchemaShape_ok.mp hschema),
    validateHistogramBucketTotal_ok.mpr (validateHistogramBucketTotal_ok.mp htotal)⟩

instance : LawfulVarLen HistogramValue where
  decodeFrom_encodeInto {v bytes} hlen h := by
    obtain ⟨hshape, rfl⟩ := checked_ok.mp h
    rw [encodeFields] at hlen
    simp only [List.length_append, encodeF64s_length] at hlen
    have hcounts := encodeVarints_length_ge v.bucketCounts
    refine decodeWhole_ok.mpr ?_
    simp only [decodeFields, Parser.bind_ok, decodeTypedMetadata_ok, decodeVarint_ok,
      decodeOptF64_ok, decodeLen_ok, decodeF64s_ok, decodeVarints_ok, Parser.lift_ok,
      Parser.pure_ok]
    exact ⟨_, _, rfl, _, _, rfl, _, _, rfl, _, _, rfl, _, _, rfl, _, _, ⟨by omega, rfl⟩, _, _,
      ⟨by omega, rfl, rfl⟩, _, _, ⟨by omega, rfl⟩, _, [], ⟨by omega, rfl, by rw [List.append_nil]⟩,
      (), [], ⟨validateShape_kind hshape, rfl⟩, rfl, rfl⟩

end HistogramValue

namespace ExponentialHistogramValue

variable (self : ExponentialHistogramValue)

def encodeFields : Bytes :=
  encodeTypedMetadata self.metadata ++ (encodeVarint self.count ++ (encodeOptF64 self.sum ++
    (encodeOptF64 self.min ++ (encodeOptF64 self.max ++ (encodeI32 self.scale ++
      (encodeF64 self.zeroThreshold ++ (encodeVarint self.zeroCount ++
        (encodeBuckets self.positive ++ encodeBuckets self.negative))))))))

def encodeInto : Except IoError Bytes := do
  validateExponentialHistogramShape self.zeroCount self.positive.counts self.negative.counts
    self.count .invalidInput
  return self.encodeFields

def decodeFields : Reader ExponentialHistogramValue := do
  let metadata ← decodeTypedMetadata
  let count ← decodeVarint
  let sum ← decodeOptF64
  let min ← decodeOptF64
  let max ← decodeOptF64
  let scale ← decodeI32
  let zeroThreshold ← decodeF64
  let zeroCount ← decodeVarint
  let positive ← decodeBuckets "exponential histogram bucket counts"
  let negative ← decodeBuckets "exponential histogram bucket counts"
  Parser.lift (validateExponentialHistogramShape zeroCount positive.counts negative.counts count
    .invalidData)
  return { count, sum, min, max, scale, zeroThreshold, zeroCount, metadata, positive, negative }

instance : VarLenEncoding ExponentialHistogramValue := ⟨encodeInto, decodeWholeValue decodeFields⟩

instance : LawfulVarLen ExponentialHistogramValue where
  decodeFrom_encodeInto {v bytes} hlen h := by
    obtain ⟨hshape, rfl⟩ := checked_ok.mp h
    rw [encodeFields] at hlen
    simp only [List.length_append] at hlen
    have hpositive : (encodeBuckets v.positive ++ encodeBuckets v.negative).length < 2 ^ 64 := by
      rw [List.length_append]
      omega
    refine decodeWhole_ok.mpr ?_
    simp only [decodeFields, Parser.bind_ok, decodeTypedMetadata_ok, decodeVarint_ok,
      decodeOptF64_ok, decodeI32_ok, decodeF64_ok, Parser.lift_ok,
      validateExponentialHistogramShape_ok, Parser.pure_ok]
    exact ⟨_, _, rfl, _, _, rfl, _, _, rfl, _, _, rfl, _, _, rfl, _, _, rfl, _, _, rfl, _, _, rfl,
      _, _, (decodeBuckets_ok hpositive).mpr rfl, _, [],
      (decodeBuckets_ok (by omega)).mpr (List.append_nil _).symm, (), [],
      ⟨validateExponentialHistogramShape_ok.mp hshape, rfl⟩, rfl, rfl⟩

end ExponentialHistogramValue

namespace SummaryValue

def encodeQuantile (quantile : SummaryQuantileValue) : Bytes :=
  encodeF64 quantile.quantile ++ encodeF64 quantile.value

def decodeQuantile : Reader SummaryQuantileValue := do
  let quantile ← decodeF64
  let value ← decodeF64
  return { quantile, value }

def encodeFields (self : SummaryValue) : Bytes :=
  encodeTypedMetadata self.metadata ++ (encodeVarint self.count ++ (encodeF64 self.sum ++
    (encodeLen self.quantiles.length ++ self.quantiles.flatMap encodeQuantile)))

def encodeInto (self : SummaryValue) : Except IoError Bytes := do
  validateSummaryQuantilePositions self.positions .invalidInput
  return self.encodeFields

def decodeFields : Reader SummaryValue := do
  let metadata ← decodeTypedMetadata
  let count ← decodeVarint
  let sum ← decodeF64
  let quantileLen ← decodeLen
  let quantiles ← decodeItems decodeQuantile quantileLen 16 "summary quantile pairs"
  Parser.lift (validateSummaryQuantilePositions (quantiles.map (·.quantile)) .invalidData)
  return { count, sum, metadata, quantiles }

instance : VarLenEncoding SummaryValue := ⟨encodeInto, decodeWholeValue decodeFields⟩

theorem decodeQuantile_codes : Parser.Codes decodeQuantile (fun _ => True) encodeQuantile := by
  intro bs q rest
  simp only [decodeQuantile, Parser.bind_ok, decodeF64_ok, Parser.pure_ok, encodeQuantile,
    true_and, List.append_assoc]
  constructor
  · rintro ⟨_, _, rfl, _, _, rfl, rfl, rfl⟩
    rfl
  · rintro rfl
    exact ⟨_, _, rfl, _, _, rfl, rfl, rfl⟩

theorem encodeQuantile_length (q : SummaryQuantileValue) : (encodeQuantile q).length = 16 := by
  rw [encodeQuantile, List.length_append, encodeF64_length, encodeF64_length]

instance : LawfulVarLen SummaryValue where
  decodeFrom_encodeInto {v bytes} hlen h := by
    obtain ⟨hpositions, rfl⟩ := checked_ok.mp h
    rw [encodeFields] at hlen
    simp only [List.length_append, length_flatMap_eq encodeQuantile_length] at hlen
    refine decodeWhole_ok.mpr ?_
    simp only [decodeFields, Parser.bind_ok, decodeTypedMetadata_ok, decodeVarint_ok, decodeF64_ok,
      decodeLen_ok, decodeItems_ok decodeQuantile_codes fun q => (encodeQuantile_length q).ge,
      Parser.lift_ok, validateSummaryQuantilePositions_ok, Parser.pure_ok]
    exact ⟨_, _, rfl, _, _, rfl, _, _, rfl, _, _, ⟨by omega, rfl⟩, _, [],
      ⟨by omega, rfl, by rw [List.append_nil]⟩, (), [],
      ⟨validateSummaryQuantilePositions_ok.mp hpositions, rfl⟩, rfl, rfl⟩

end SummaryValue

def varLenCodec (T : Type) [VarLenEncoding T] (value : String) : BlockCodec T where
  name := "chronoxide_core::storage::encoding::varlen::VarLenCodec<" ++ value ++ ">"
  State := VarLenCodec T
  new := VarLenCodec.new
  push := VarLenCodec.push
  snapshotBytes codec := codec.values
  intoBytes codec := codec.values
  decodeValues := VarLenCodec.decodeValues

theorem varLenCodec_lossless {T : Type} [VarLenEncoding T] [LawfulVarLen T] (value : String) :
    (varLenCodec T value).Lossless := by
  refine BlockCodec.lossless_of_tracks (fun codec vs => VarLenCodec.Tracks codec vs) ?_ ?_
    (fun _ => rfl) ?_
  · intro v s hs
    have hempty : VarLenCodec.Tracks (⟨[]⟩ : VarLenCodec T) [] := ⟨[], rfl, rfl⟩
    exact hempty.step hs
  · intro vs v s t hs ht
    exact hs.step ht
  · intro vs s hs _ _ hfits
    have hmax : isizeMax < 2 ^ 64 := by decide
    exact hs.decodeValues (Nat.lt_of_le_of_lt hfits hmax)

def schemaVarLenCodec (T : Type) [SchemaVarLenEncoding T] (value : String) : BlockCodec T where
  name := "chronoxide_core::storage::encoding::schema_varlen::SchemaVarLenCodec<" ++ value ++ ">"
  State := SchemaVarLenCodec T
  new := SchemaVarLenCodec.new
  push := SchemaVarLenCodec.push
  snapshotBytes := SchemaVarLenCodec.intoBytes
  intoBytes := SchemaVarLenCodec.intoBytes
  decodeValues := SchemaVarLenCodec.decodeValues

open SchemaVarLenCodec LawfulSchemaVarLen in
theorem schemaVarLenCodec_lossless {T : Type} [SchemaVarLenEncoding T] [LawfulSchemaVarLen T]
    (value : String) : (schemaVarLenCodec T value).Lossless := by
  refine BlockCodec.lossless_of_foldlM SchemaVarLenCodec.empty (fun _ => rfl) (fun _ => rfl) ?_
  intro vs s hs hne _ hfits
  change s.intoBytes.length ≤ isizeMax at hfits
  have hmax : isizeMax < 2 ^ 64 := by decide
  obtain ⟨hstored, hbytes⟩ := run_sound hs (by omega)
  change SchemaVarLenCodec.decodeValues s.intoBytes vs.length = .ok vs
  refine (decodeValues_ok ?_ (by omega)).mpr ⟨rfl, hstored, hbytes⟩
  exact fun h => hne (List.length_eq_zero_iff.mp h)

/-- The codecs of `head/encoded.rs`. The ELF and ALP codecs and the DuckDB layout of Chimp128 are a
parameter. -/
def headCodecs (others : FloatEncoding → BlockCodec F64) : HeadCodecs where
  float
    | .raw => floatRawCodec
    | .gorilla => floatGorillaCodec
    | .chimp128Baseline => floatChimp128BaselineDeferredCodec
    | encoding => others encoding
  int
    | .raw => intRawCodec
    | .deltaZigZag => intDeltaCodec
  histogram
    | .raw => varLenCodec HistogramValue "chronoxide_core::storage::head::types::HistogramValue"
    | .schema =>
      schemaVarLenCodec HistogramValue "chronoxide_core::storage::head::types::HistogramValue"
  exponentialHistogram
    | .raw => varLenCodec ExponentialHistogramValue
      "chronoxide_core::storage::head::types::ExponentialHistogramValue"
    | .schema => schemaVarLenCodec ExponentialHistogramValue
      "chronoxide_core::storage::head::types::ExponentialHistogramValue"
  summary
    | .raw => varLenCodec SummaryValue "chronoxide_core::storage::head::types::SummaryValue"
    | .schema =>
      schemaVarLenCodec SummaryValue "chronoxide_core::storage::head::types::SummaryValue"

/-- Every codec of a head reads back what it took, the float codec in the encoding that is used. -/
structure HeadCodecs.Lossless (K : HeadCodecs) (encoding : FloatEncoding) : Prop where
  gorilla : (K.float .gorilla).Lossless
  float : (K.float encoding).Lossless
  int : ∀ encoding, (K.int encoding).Lossless
  histogram : ∀ encoding, (K.histogram encoding).Lossless
  exponentialHistogram : ∀ encoding, (K.exponentialHistogram encoding).Lossless
  summary : ∀ encoding, (K.summary encoding).Lossless

theorem headCodecs_lossless {others : FloatEncoding → BlockCodec F64} {encoding : FloatEncoding}
    (h : encoding ∉ [.raw, .gorilla, .chimp128Baseline] → (others encoding).Lossless) :
    (headCodecs others).Lossless encoding where
  gorilla := floatGorillaCodec_lossless
  float := by
    cases encoding with
    | raw => exact floatRawCodec_lossless
    | gorilla => exact floatGorillaCodec_lossless
    | chimp128Baseline => exact floatChimp128BaselineDeferredCodec_lossless
    | elf | alp | alpRd | alpSpiral | alpRdSpiral | chimp128DuckDB => exact h (by simp)
  int encoding := by
    cases encoding with
    | raw => exact intRawCodec_lossless
    | deltaZigZag => exact intDeltaCodec_lossless
  histogram encoding := by
    cases encoding with
    | raw => exact varLenCodec_lossless _
    | schema => exact schemaVarLenCodec_lossless _
  exponentialHistogram encoding := by
    cases encoding with
    | raw => exact varLenCodec_lossless _
    | schema => exact schemaVarLenCodec_lossless _
  summary encoding := by
    cases encoding with
    | raw => exact varLenCodec_lossless _
    | schema => exact schemaVarLenCodec_lossless _

end Chronoxide
