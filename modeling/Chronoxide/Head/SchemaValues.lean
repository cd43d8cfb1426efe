import Chronoxide.Encoding.SchemaVarlen

/-! The three typed values as schema-tagged values (`head/types.rs`): which part of a value is its
schema, and that schema and rest each have one encoding. -/

namespace Chronoxide
open Codec Parser List

def encodeF64s (values : List F64) : Bytes := values.flatMap encodeF64
def encodeVarints (values : List UInt64) : Bytes := values.flatMap encodeVarint

theorem encodeF64s_length (xs : List F64) : (encodeF64s xs).length = xs.length * 8 :=
  length_flatMap_eq encodeF64_length xs

theorem encodeVarints_length_ge (xs : List UInt64) : xs.length ≤ (encodeVarints xs).length := by
  have h := length_flatMap_ge encodeVarint_length_pos xs
  rw [Nat.mul_one] at h
  exact h

variable {bs rest : Bytes}

theorem decodeF64s_ok {n : Nat} {field : String} {xs : List F64} :
    decodeItems decodeF64 n 8 field bs = .ok (xs, rest) ↔
      n * 8 < 2 ^ 64 ∧ xs.length = n ∧ bs = encodeF64s xs ++ rest :=
  decodeItems_ok decodeF64_codes fun x => (encodeF64_length x).ge

theorem decodeVarints_ok {n : Nat} {field : String} {xs : List UInt64} :
    decodeItems decodeVarint n 1 field bs = .ok (xs, rest) ↔
      n * 1 < 2 ^ 64 ∧ xs.length = n ∧ bs = encodeVarints xs ++ rest :=
  decodeItems_ok decodeVarint_codes encodeVarint_length_pos

theorem checked_ok {check : Except IoError Unit} {out b : Bytes} :
    (do check; return out) = .ok b ↔ check = .ok () ∧ b = out := by
  cases check with
  | error e => simp [bind, Except.bind]
  | ok u => simp [bind, Except.bind, pure, Except.pure, eq_comm]

structure HistogramSchema where
  explicitBounds : List F64
  bucketLen : Nat
  deriving DecidableEq, Repr

namespace HistogramValue

def schemaOf (v : HistogramValue) : HistogramSchema := ⟨v.explicitBounds, v.bucketCounts.length⟩

def encodeSchemaBytes (explicitBounds : List F64) (bucketLen : Nat) : Bytes :=
  encodeLen explicitBounds.length ++ (encodeF64s explicitBounds ++ encodeLen bucketLen)

variable (self : HistogramValue)

def encodeSchemaFromValue : Except IoError Bytes := do
  validateHistogramSchemaShape self.explicitBounds self.bucketCounts.length .invalidInput
  return encodeSchemaBytes self.explicitBounds self.bucketCounts.length

def decodeSchema : Reader HistogramSchema := do
  let boundsLen ← decodeLen
  let explicitBounds ← decodeItems decodeF64 boundsLen 8 "histogram schema bounds"
  let bucketLen ← decodeLen
  Parser.ensure (boundsLen + 1 < 2 ^ 64) (invalidData "histogram bucket length overflows")
  Parser.ensure (bucketLen = boundsLen + 1)
    (invalidData "histogram bucket length must equal explicit bounds plus one")
  Parser.ensure (BoundsOk explicitBounds)
    (invalidData "histogram explicit bounds must be finite and strictly ascending")
  return ⟨explicitBounds, bucketLen⟩

def encodeRest : Bytes :=
  encodeTypedMetadata self.metadata ++ (encodeVarint self.count ++ (encodeOptF64 self.sum ++
    (encodeOptF64 self.min ++ (encodeOptF64 self.max ++ encodeVarints self.bucketCounts))))

def encodeValueWithSchema (schema : HistogramSchema) : Except IoError Bytes :=
  if self.bucketCounts.length ≠ schema.bucketLen then
    .error (invalidInput "histogram bucket length mismatch")
  else do
    validateHistogramBucketTotal self.bucketCounts self.count .invalidInput
    return self.encodeRest

def decodeValueWithSchema (schema : HistogramSchema) : Reader HistogramValue := do
  let metadata ← decodeTypedMetadata
  let count ← decodeVarint
  let sum ← decodeOptF64
  let min ← decodeOptF64
  let max ← decodeOptF64
  let bucketCounts ← decodeItems decodeVarint schema.bucketLen 1 "histogram schema bucket counts"
  let bucketTotal ← Parser.lift (checkedCountTotal bucketCounts .invalidData "histogram")
  Parser.ensure (bucketTotal = count) (invalidData "histogram bucket total must equal count")
  return { count, sum, min, max, metadata, explicitBounds := schema.explicitBounds, bucketCounts }

instance : SchemaVarLenEncoding HistogramValue where
  Schema := HistogramSchema
  encodeSchemaFromValue := encodeSchemaFromValue
  decodeSchema := decodeSchema
  encodeValueWithSchema := encodeValueWithSchema
  decodeValueWithSchema := decodeValueWithSchema

def SchemaOk (s : HistogramSchema) : Prop :=
  BoundsOk s.explicitBounds ∧ s.explicitBounds.length + 1 < 2 ^ 64 ∧
    s.bucketLen = s.explicitBounds.length + 1

def TotalOk (v : HistogramValue) : Prop := countSum v.bucketCounts = v.count.toNat

theorem decodeSchema_ok {s : HistogramSchema} (hbs : bs.length < 2 ^ 64) :
    decodeSchema bs = .ok (s, rest) ↔
      SchemaOk s ∧ bs = encodeSchemaBytes s.explicitBounds s.bucketLen ++ rest := by
  simp only [decodeSchema, bind_ok, decodeLen_ok, decodeF64s_ok, ensure_ok,
    exists_ensure, pure_ok, SchemaOk, encodeSchemaBytes, append_assoc]
  constructor
  · rintro ⟨n, _, ⟨hn, rfl⟩, bounds, _, ⟨hn8, rfl, rfl⟩, m, _, ⟨hm, rfl⟩, hover, rfl, hok, rfl, rfl⟩
    exact ⟨⟨hok, hover, rfl⟩, rfl⟩
  obtain ⟨bounds, m⟩ := s
  rintro ⟨⟨hok, hover, hm⟩, rfl⟩
  dsimp only at hok hover hm hbs ⊢
  simp only [length_append, encodeF64s_length] at hbs
  exact ⟨_, _, ⟨by omega, rfl⟩, bounds, _, ⟨by omega, rfl, rfl⟩, m, _, ⟨by omega, rfl⟩, hover, hm,
    hok, rfl, rfl⟩

theorem decodeValueWithSchema_ok {s : HistogramSchema} {v : HistogramValue}
    (hbs : bs.length < 2 ^ 64) :
    decodeValueWithSchema s bs = .ok (v, rest) ↔
      (TotalOk v ∧ schemaOf v = s) ∧ bs = encodeRest v ++ rest := by
  simp only [decodeValueWithSchema, bind_ok, decodeTypedMetadata_ok, decodeVarint_ok,
    decodeOptF64_ok, decodeVarints_ok, lift_ok, checkedCountTotal_ok, ensure_ok,
    exists_ensure, pure_ok, TotalOk, schemaOf, encodeRest, append_assoc]
  constructor
  · rintro ⟨md, _, rfl, c, _, rfl, sum, _, rfl, mn, _, rfl, mx, _, rfl, counts, _, ⟨-, hlen, rfl⟩,
      total, _, ⟨htotal, rfl⟩, rfl, rfl, rfl⟩
    exact ⟨⟨htotal, by rw [hlen]⟩, rfl⟩
  rintro ⟨⟨htotal, rfl⟩, rfl⟩
  have hcounts : v.bucketCounts.length * 1 < 2 ^ 64 := by
    have := encodeVarints_length_ge v.bucketCounts
    simp only [length_append] at hbs
    omega
  exact ⟨_, _, rfl, _, _, rfl, _, _, rfl, _, _, rfl, _, _, rfl, _, _, ⟨hcounts, rfl, rfl⟩, _, _,
    ⟨htotal, rfl⟩, rfl, rfl, rfl⟩

instance : LawfulSchemaVarLen HistogramValue where
  schemaOf := schemaOf
  SchemaValid := SchemaOk
  Valid := TotalOk
  encodeSchema s := encodeSchemaBytes s.explicitBounds s.bucketLen
  encodeRest := encodeRest
  encodeSchemaFromValue_ok := checked_ok.trans (and_congr_left' validateHistogramSchemaShape_ok)
  encodeValueWithSchema_ok {v b} := by
    change encodeValueWithSchema v (schemaOf v) = _ ↔ _
    rw [encodeValueWithSchema, if_neg (fun h => h rfl)]
    exact checked_ok.trans (and_congr_left' validateHistogramBucketTotal_ok)
  decodeSchema_ok := decodeSchema_ok
  decodeValueWithSchema_ok hbs _ := decodeValueWithSchema_ok hbs

end HistogramValue

structure ExponentialHistogramSchema where
  scale : Int32
  zeroThreshold : F64
  deriving DecidableEq, Repr

/-- One side's buckets: offset, number of counts, counts. -/
def encodeBuckets (buckets : ExponentialHistogramBuckets) : Bytes :=
  encodeI32 buckets.offset ++ (encodeLen buckets.counts.length ++ encodeVarints buckets.counts)

def decodeBuckets (field : String) : Reader ExponentialHistogramBuckets := do
  let offset ← decodeI32
  let len ← decodeLen
  let counts ← decodeItems decodeVarint len 1 field
  return { offset, counts }

theorem decodeBuckets_ok {field : String} {b : ExponentialHistogramBuckets}
    (hbs : bs.length < 2 ^ 64) :
    decodeBuckets field bs = .ok (b, rest) ↔ bs = encodeBuckets b ++ rest := by
  simp only [decodeBuckets, bind_ok, decodeI32_ok, decodeLen_ok, decodeVarints_ok,
    pure_ok, encodeBuckets, append_assoc]
  constructor
  · rintro ⟨offset, _, rfl, n, _, ⟨hn, rfl⟩, counts, _, ⟨-, rfl, rfl⟩, rfl, rfl⟩
    rfl
  rintro rfl
  have hlen : b.counts.length < 2 ^ 64 := by
    have := encodeVarints_length_ge b.counts
    simp only [length_append] at hbs
    omega
  exact ⟨_, _, rfl, _, _, ⟨hlen, rfl⟩, _, _, ⟨by omega, rfl, rfl⟩, rfl, rfl⟩

namespace ExponentialHistogramValue

def schemaOf (v : ExponentialHistogramValue) : ExponentialHistogramSchema :=
  ⟨v.scale, v.zeroThreshold⟩

def encodeSchemaBytes (s : ExponentialHistogramSchema) : Bytes :=
  encodeI32 s.scale ++ encodeF64 s.zeroThreshold

variable (self : ExponentialHistogramValue)

def encodeSchemaFromValue : Except IoError Bytes :=
  .ok (encodeSchemaBytes self.schemaOf)

def decodeSchema : Reader ExponentialHistogramSchema := do
  let scale ← decodeI32
  let zeroThreshold ← decodeF64
  return { scale, zeroThreshold }

def encodeRest : Bytes :=
  encodeTypedMetadata self.metadata ++ (encodeVarint self.count ++ (encodeOptF64 self.sum ++
    (encodeOptF64 self.min ++ (encodeOptF64 self.max ++ (encodeVarint self.zeroCount ++
      (encodeBuckets self.positive ++ encodeBuckets self.negative))))))

def encodeValueWithSchema (schema : ExponentialHistogramSchema) : Except IoError Bytes :=
  if self.scale ≠ schema.scale ∨ self.zeroThreshold.bits ≠ schema.zeroThreshold.bits then
    .error (invalidInput "exponential histogram schema mismatch")
  else do
    validateExponentialHistogramShape self.zeroCount self.positive.counts self.negative.counts
      self.count .invalidInput
    return self.encodeRest

def decodeValueWithSchema (schema : ExponentialHistogramSchema) :
    Reader ExponentialHistogramValue := do
  let metadata ← decodeTypedMetadata
  let count ← decodeVarint
  let sum ← decodeOptF64
  let min ← decodeOptF64
  let max ← decodeOptF64
  let zeroCount ← decodeVarint
  let positive ← decodeBuckets "positive exponential histogram bucket counts"
  let negative ← decodeBuckets "negative exponential histogram bucket counts"
  Parser.lift (validateExponentialHistogramShape zeroCount positive.counts negative.counts count
    .invalidData)
  return { count, sum, min, max, scale := schema.scale, zeroThreshold := schema.zeroThreshold,
           zeroCount, metadata, positive, negative }

instance : SchemaVarLenEncoding ExponentialHistogramValue where
  Schema := ExponentialHistogramSchema
  encodeSchemaFromValue := encodeSchemaFromValue
  decodeSchema := decodeSchema
  encodeValueWithSchema := encodeValueWithSchema
  decodeValueWithSchema := decodeValueWithSchema

def TotalOk (v : ExponentialHistogramValue) : Prop :=
  v.zeroCount.toNat + countSum v.positive.counts + countSum v.negative.counts = v.count.toNat

theorem decodeSchema_ok {s : ExponentialHistogramSchema} :
    decodeSchema bs = .ok (s, rest) ↔ bs = encodeSchemaBytes s ++ rest := by
  simp only [decodeSchema, bind_ok, decodeI32_ok, decodeF64_ok, pure_ok,
    encodeSchemaBytes, append_assoc]
  constructor
  · rintro ⟨scale, _, rfl, zero, _, rfl, rfl, rfl⟩
    rfl
  · rintro rfl
    exact ⟨_, _, rfl, _, _, rfl, rfl, rfl⟩

theorem decodeValueWithSchema_ok {s : ExponentialHistogramSchema}
    {v : ExponentialHistogramValue} (hbs : bs.length < 2 ^ 64) :
    decodeValueWithSchema s bs = .ok (v, rest) ↔
      (TotalOk v ∧ schemaOf v = s) ∧ bs = encodeRest v ++ rest := by
  simp only [decodeValueWithSchema, bind_ok, decodeTypedMetadata_ok, decodeVarint_ok,
    decodeOptF64_ok, lift_ok, validateExponentialHistogramShape_ok, exists_ensure,
    pure_ok, TotalOk, schemaOf, encodeRest, append_assoc]
  constructor
  · rintro ⟨md, _, rfl, c, _, rfl, sum, _, rfl, mn, _, rfl, mx, _, rfl, zero, bs, rfl, pos, bs',
      hpos, neg, _, hneg, htotal, rfl, rfl⟩
    simp only [length_append] at hbs
    obtain rfl := (decodeBuckets_ok (by omega)).mp hpos
    rw [length_append] at hbs
    obtain rfl := (decodeBuckets_ok (by omega)).mp hneg
    exact ⟨⟨htotal, rfl⟩, rfl⟩
  · rintro ⟨⟨htotal, rfl⟩, rfl⟩
    simp only [length_append] at hbs
    exact ⟨_, _, rfl, _, _, rfl, _, _, rfl, _, _, rfl, _, _, rfl, _, _, rfl,
      _, _, (decodeBuckets_ok (by simp only [length_append]; omega)).mpr rfl,
      _, _, (decodeBuckets_ok (by simp only [length_append]; omega)).mpr rfl, htotal, rfl, rfl⟩

instance : LawfulSchemaVarLen ExponentialHistogramValue where
  schemaOf := schemaOf
  SchemaValid _ := True
  Valid := TotalOk
  encodeSchema := encodeSchemaBytes
  encodeRest := encodeRest
  encodeSchemaFromValue_ok {v b} := by
    change Except.ok (encodeSchemaBytes v.schemaOf) = Except.ok b ↔ _
    rw [Except.ok.injEq, true_and, eq_comm]
  encodeValueWithSchema_ok {v b} := by
    change encodeValueWithSchema v (schemaOf v) = _ ↔ _
    rw [encodeValueWithSchema, if_neg (fun h => h.elim (· rfl) (· rfl))]
    exact checked_ok.trans (and_congr_left' validateExponentialHistogramShape_ok)
  decodeSchema_ok _ := decodeSchema_ok.trans (true_and _).symm.to_iff
  decodeValueWithSchema_ok hbs _ := decodeValueWithSchema_ok hbs

end ExponentialHistogramValue

structure SummarySchema where
  quantiles : List F64
  deriving DecidableEq, Repr

namespace SummaryValue

def positions (v : SummaryValue) : List F64 := v.quantiles.map (·.quantile)

def schemaOf (v : SummaryValue) : SummarySchema := ⟨v.positions⟩

def encodeSchemaBytes (s : SummarySchema) : Bytes :=
  encodeLen s.quantiles.length ++ encodeF64s s.quantiles

def encodeSchemaFromValue (self : SummaryValue) : Except IoError Bytes := do
  validateSummaryQuantilePositions self.positions .invalidInput
  return encodeSchemaBytes self.schemaOf

def decodeSchema : Reader SummarySchema := do
  let len ← decodeLen
  let quantiles ← decodeItems decodeF64 len 8 "summary schema quantiles"
  Parser.lift (validateSummaryQuantilePositions quantiles .invalidData)
  return { quantiles }

def encodeRest (self : SummaryValue) : Bytes :=
  encodeTypedMetadata self.metadata ++ (encodeVarint self.count ++ (encodeF64 self.sum ++
    encodeF64s (self.quantiles.map (·.value))))

-- Equal lengths, then equal bit patterns position by position.
def encodeValueWithSchema (self : SummaryValue) (schema : SummarySchema) :
    Except IoError Bytes :=
  if self.quantiles.length ≠ schema.quantiles.length then
    .error (invalidInput "summary quantile length mismatch")
  else if (self.positions.zip schema.quantiles).any (fun (a, b) => a.bits ≠ b.bits) then
    .error (invalidInput "summary quantile schema mismatch")
  else .ok self.encodeRest

def decodeValueWithSchema (schema : SummarySchema) : Reader SummaryValue := do
  let metadata ← decodeTypedMetadata
  let count ← decodeVarint
  let sum ← decodeF64
  let values ← decodeItems decodeF64 schema.quantiles.length 8 "summary values"
  return { count, sum, metadata, quantiles := zipWith .mk schema.quantiles values }

instance : SchemaVarLenEncoding SummaryValue where
  Schema := SummarySchema
  encodeSchemaFromValue := encodeSchemaFromValue
  decodeSchema := decodeSchema
  encodeValueWithSchema := encodeValueWithSchema
  decodeValueWithSchema := decodeValueWithSchema

theorem decodeSchema_ok {s : SummarySchema} (hbs : bs.length < 2 ^ 64) :
    decodeSchema bs = .ok (s, rest) ↔
      QuantilesOk s.quantiles ∧ bs = encodeSchemaBytes s ++ rest := by
  simp only [decodeSchema, bind_ok, decodeLen_ok, decodeF64s_ok, lift_ok,
    validateSummaryQuantilePositions_ok, exists_ensure, pure_ok, encodeSchemaBytes, append_assoc]
  constructor
  · rintro ⟨n, _, ⟨-, rfl⟩, qs, _, ⟨-, rfl, rfl⟩, hok, rfl, rfl⟩
    exact ⟨hok, rfl⟩
  · rintro ⟨hok, rfl⟩
    simp only [length_append, encodeF64s_length] at hbs
    exact ⟨_, _, ⟨by omega, rfl⟩, _, _, ⟨by omega, rfl, rfl⟩, hok, rfl, rfl⟩

theorem quantiles_eq_zipWith {qs : List SummaryQuantileValue} {ps values : List F64}
    (h : values.length = ps.length) :
    zipWith .mk ps values = qs ↔ qs.map (·.quantile) = ps ∧ qs.map (·.value) = values := by
  constructor
  · rintro rfl
    induction ps generalizing values with
    | nil => rw [length_eq_zero_iff.mp h]; exact ⟨rfl, rfl⟩
    | cons p ps ih =>
      cases values with
      | nil => cases h
      | cons v values =>
        obtain ⟨h1, h2⟩ := ih (Nat.succ.inj h)
        exact ⟨congrArg (p :: ·) h1, congrArg (v :: ·) h2⟩
  · rintro ⟨rfl, rfl⟩
    rw [zipWith_map, zipWith_self]
    exact map_id _

theorem decodeValueWithSchema_ok {s : SummarySchema} {v : SummaryValue} (hbs : bs.length < 2 ^ 64) :
    decodeValueWithSchema s bs = .ok (v, rest) ↔ schemaOf v = s ∧ bs = encodeRest v ++ rest := by
  simp only [decodeValueWithSchema, bind_ok, decodeTypedMetadata_ok, decodeVarint_ok, decodeF64_ok,
    decodeF64s_ok, pure_ok, schemaOf, positions, encodeRest, append_assoc]
  constructor
  · rintro ⟨md, _, rfl, c, _, rfl, sum, _, rfl, values, _, ⟨-, hlen, rfl⟩, rfl, rfl⟩
    obtain ⟨hq, hv⟩ := (quantiles_eq_zipWith hlen).mp rfl
    exact ⟨by rw [hq], by rw [hv]⟩
  rintro ⟨rfl, rfl⟩
  simp only [length_append, encodeF64s_length, length_map] at hbs
  have hlen : (v.quantiles.map (·.value)).length = (v.quantiles.map (·.quantile)).length := by
    rw [length_map, length_map]
  refine ⟨_, _, rfl, _, _, rfl, _, _, rfl, _, _, ⟨?_, hlen, rfl⟩, ?_, rfl⟩
  · rw [length_map]
    omega
  · rw [(quantiles_eq_zipWith hlen).mpr ⟨rfl, rfl⟩]

instance : LawfulSchemaVarLen SummaryValue where
  schemaOf := schemaOf
  SchemaValid s := QuantilesOk s.quantiles
  Valid _ := True
  encodeSchema := encodeSchemaBytes
  encodeRest := encodeRest
  encodeSchemaFromValue_ok := checked_ok.trans (and_congr_left' validateSummaryQuantilePositions_ok)
  encodeValueWithSchema_ok {v b} := by
    change encodeValueWithSchema v (schemaOf v) = _ ↔ _
    have hsame :
        (v.positions.zip v.positions).any (fun (a, b) => decide (a.bits ≠ b.bits)) = false := by
      rw [any_eq_false]
      intro p hp
      rw [zip_eq_zipWith, zipWith_self] at hp
      obtain ⟨x, -, rfl⟩ := mem_map.mp hp
      simp
    rw [encodeValueWithSchema, if_neg (fun h => h (length_map _).symm), schemaOf, hsame]
    simp only [Bool.false_eq_true, if_false, Except.ok.injEq, true_and, eq_comm]
  decodeSchema_ok := decodeSchema_ok
  decodeValueWithSchema_ok hbs _ := by
    rw [true_and]
    exact decodeValueWithSchema_ok hbs

end SummaryValue

open LawfulSchemaVarLen SchemaVarLenCodec

/-- Lists whose bytes fit a vector. The decoder takes the bytes of `encodeValues` and no others;
the encoder writes them for up to 2^32 distinct schemas and refuses any more. -/
structure SchemaCodecCanonical (T : Type) [SchemaVarLenEncoding T] [LawfulSchemaVarLen T] :
    Prop where
  encodes : ∀ (first : T) (rest : List T) (out : Bytes), out.length ≤ isizeMax →
    (encodeSchemaVarlenValues first rest = .ok out ↔
      (∀ v ∈ first :: rest, Storable v) ∧
        (firstSeen [] ((first :: rest).map key)).length ≤ 2 ^ 32 ∧
        out = encodeValues (first :: rest))
  reads_back : ∀ (first : T) (rest : List T) (out : Bytes), out.length ≤ isizeMax →
    encodeSchemaVarlenValues first rest = .ok out →
      decodeValues out (rest.length + 1) = .ok (first :: rest)
  canonical : ∀ (buf : Bytes) (n : Nat) (vs : List T), 1 ≤ n → buf.length ≤ isizeMax →
    decodeValues buf n = .ok vs →
      vs.length = n ∧ (∀ v ∈ vs, Storable v) ∧ buf = encodeValues vs ∧
        ∀ first rest, vs = first :: rest → (firstSeen [] (vs.map key)).length ≤ 2 ^ 32 →
          encodeSchemaVarlenValues first rest = .ok buf

theorem schemaCodecCanonical (T : Type) [SchemaVarLenEncoding T] [LawfulSchemaVarLen T] :
    SchemaCodecCanonical T := by
  have hfits {n : Nat} (h : n ≤ isizeMax) : n + 10 < 2 ^ 64 := by
    simp only [isizeMax] at h
    omega
  refine ⟨fun first rest out hout => encodeSchemaVarlenValues_ok (hfits hout),
    fun first rest out hout henc => ?_, fun buf n vs hn hbuf hdec => ?_⟩
  · obtain ⟨hvs, -, rfl⟩ := (encodeSchemaVarlenValues_ok (hfits hout)).mp henc
    exact (decodeValues_ok (Nat.succ_ne_zero _) (Nat.lt_of_add_right_lt (hfits hout))).mpr
      ⟨rfl, hvs, rfl⟩
  have hlt := Nat.lt_of_add_right_lt (hfits hbuf)
  obtain ⟨hlen, hvs, rfl⟩ := (decodeValues_ok (Nat.ne_of_gt hn) hlt).mp hdec
  refine ⟨hlen, hvs, rfl, ?_⟩
  rintro first rest rfl hroom
  exact (encodeSchemaVarlenValues_ok (hfits hbuf)).mpr ⟨hvs, hroom, rfl⟩

theorem schemaCodec_canonical :
    SchemaCodecCanonical HistogramValue ∧ SchemaCodecCanonical ExponentialHistogramValue ∧
      SchemaCodecCanonical SummaryValue :=
  ⟨schemaCodecCanonical _, schemaCodecCanonical _, schemaCodecCanonical _⟩

/-- The check before storage and the schema codec agree: lists of values that all pass the check are
encoded, up to 2^32 distinct schemas, and no other list of values is ever read. -/
structure StoresChecked (T : Type) [SchemaVarLenEncoding T] [LawfulSchemaVarLen T]
    (sample : T → SampleValue) : Prop where
  encodes : ∀ (first : T) (rest : List T), (encodeValues (first :: rest)).length ≤ isizeMax →
    (encodeSchemaVarlenValues first rest = .ok (encodeValues (first :: rest)) ↔
      (∀ v ∈ first :: rest, (sample v).validateForStorage = .ok ()) ∧
        (firstSeen [] ((first :: rest).map key)).length ≤ 2 ^ 32)
  reads : ∀ (buf : Bytes) (n : Nat) (vs : List T), 1 ≤ n → buf.length ≤ isizeMax →
    (decodeValues buf n = .ok vs ↔ vs.length = n ∧
      (∀ v ∈ vs, (sample v).validateForStorage = .ok ()) ∧ buf = encodeValues vs)

theorem storesChecked {T : Type} [SchemaVarLenEncoding T] [LawfulSchemaVarLen T]
    {sample : T → SampleValue}
    (h : ∀ v, (sample v).validateForStorage = .ok () ↔ Storable v) : StoresChecked T sample := by
  constructor
  · intro first rest hlen
    rw [(schemaCodecCanonical T).encodes first rest _ hlen]
    simp [h]
  · intro buf n vs hn hbuf
    simp only [h]
    refine decodeValues_ok (Nat.ne_of_gt hn) ?_
    simp only [isizeMax] at hbuf
    omega

theorem storageCheck_exact : StoresChecked HistogramValue .histogram ∧
    StoresChecked ExponentialHistogramValue .exponentialHistogram ∧
    StoresChecked SummaryValue .summary := by
  refine ⟨storesChecked fun v => ?_, storesChecked fun v => ?_, storesChecked fun v => ?_⟩
  · refine except_bind_ok.trans ⟨?_, ?_⟩
    · rintro ⟨_, hschema, htotal⟩
      exact ⟨validateHistogramBucketTotal_ok.mp htotal, validateHistogramSchemaShape_ok.mp hschema⟩
    · rintro ⟨htotal, hschema⟩
      exact ⟨(), validateHistogramSchemaShape_ok.mpr hschema,
        validateHistogramBucketTotal_ok.mpr htotal⟩
  · exact validateExponentialHistogramShape_ok.trans ⟨fun h => ⟨h, trivial⟩, And.left⟩
  · exact validateSummaryQuantilePositions_ok.trans ⟨fun h => ⟨trivial, h⟩, And.right⟩

namespace ExponentialHistogramValue

def vacant (i : Nat) : ExponentialHistogramValue :=
  { count := 0, sum := none, min := none, max := none, scale := 0,
    zeroThreshold := ⟨UInt64.ofNat i⟩, zeroCount := 0,
    metadata := ⟨none, 0, .unspecified, .unknown⟩, positive := ⟨0, []⟩, negative := ⟨0, []⟩ }

theorem key_vacant_length (i : Nat) : (key (vacant i)).length = 9 := by
  change (encodeI32 0 ++ encodeF64 _).length = 9
  rfl

theorem nodup_keys_vacant {n : Nat} (hn : n ≤ 2 ^ 64) : (((range n).map vacant).map key).Nodup := by
  rw [map_map, Nodup, pairwise_map]
  refine nodup_range.imp_of_mem fun {i j} hi hj hne heq => hne ?_
  rw [mem_range] at hi hj
  have hkey := key_vacant_length i
  have hschema := encodeSchema_injective (T := ExponentialHistogramValue) trivial trivial
    (by rw [key] at hkey; omega) heq
  have hbits : UInt64.ofNat i = UInt64.ofNat j :=
    congrArg (fun s : ExponentialHistogramSchema => s.zeroThreshold.bits) hschema
  have hij := congrArg UInt64.toNat hbits
  rwa [UInt64.toNat_ofNat_of_lt' (lt_of_lt_of_le hi hn),
    UInt64.toNat_ofNat_of_lt' (lt_of_lt_of_le hj hn)] at hij

theorem encodeValues_vacant_length {n : Nat} (hn : n ≤ 2 ^ 64) :
    (encodeValues ((range n).map vacant)).length ≤ 10 + n * 50 := by
  have htable := firstSeen_of_nodup [] (nodup_keys_vacant hn)
  have hentries : ((((range n).map vacant).map key).flatMap encodeEntry).length ≤ n * 20 := by
    refine (length_flatMap_le (m := 20) fun b hb => ?_).trans (by simp)
    simp only [map_map, mem_map, mem_range] at hb
    obtain ⟨i, -, rfl⟩ := hb
    have hkey := key_vacant_length i
    have hlen := encodeLen_length_le (key (vacant i)).length
    rw [encodeEntry, length_append]
    simp only [Function.comp_apply]
    omega
  have hvalues (table : List Bytes) :
      (((range n).map vacant).flatMap (encodeTagged table)).length ≤ n * 30 := by
    refine (length_flatMap_le (m := 30) fun v hv => ?_).trans (by simp)
    obtain ⟨i, -, rfl⟩ := mem_map.mp hv
    have hlen := encodeLen_length_le (numberOf table (key (vacant i)))
    have hrest : (LawfulSchemaVarLen.encodeRest (vacant i)).length ≤ 20 := by
      change (encodeRest (vacant 0)).length ≤ 20
      decide
    rw [encodeTagged, length_append]
    omega
  have hcount := encodeLen_length_le (((range n).map vacant).map key).length
  have := hvalues (((range n).map vacant).map key)
  rw [encodeValues, htable, nil_append, writeSchemaHeader, length_append, length_append]
  omega

end ExponentialHistogramValue

open ExponentialHistogramValue in
theorem schemaCodec_refuses_decoded :
    ∃ (buf : Bytes) (first : ExponentialHistogramValue) (rest : List ExponentialHistogramValue),
      buf.length ≤ isizeMax ∧ decodeValues buf (rest.length + 1) = .ok (first :: rest) ∧
        encodeSchemaVarlenValues first rest ≠ .ok buf := by
  obtain ⟨n, hn⟩ : ∃ n : Nat, n = 2 ^ 32 := ⟨_, rfl⟩
  have hlist : (range (n + 1)).map vacant =
      vacant 0 :: ((range n).map Nat.succ).map vacant := by
    rw [range_succ_eq_map, map_cons]
  have hsize := encodeValues_vacant_length (n := n + 1) (by omega)
  have hfits : (encodeValues ((range (n + 1)).map vacant)).length ≤ isizeMax := by
    simp only [isizeMax]
    omega
  have hlen : (((range n).map Nat.succ).map vacant).length + 1 = n + 1 := by simp
  have hstored : ∀ v ∈ (range (n + 1)).map vacant, Storable v := by
    intro v hv
    obtain ⟨i, -, rfl⟩ := mem_map.mp hv
    exact ⟨rfl, trivial⟩
  refine ⟨_, vacant 0, ((range n).map Nat.succ).map vacant, hfits, ?_, fun henc => ?_⟩
  · rw [← hlist, hlen]
    refine (decodeValues_ok (by omega) (by simp only [isizeMax] at hfits; omega)).mpr
      ⟨by simp, hstored, rfl⟩
  obtain ⟨-, hroom, -⟩ := ((schemaCodecCanonical _).encodes _ _ _ hfits).mp henc
  rw [← hlist, firstSeen_of_nodup [] (nodup_keys_vacant (by omega))] at hroom
  simp at hroom
  omega

end Chronoxide
