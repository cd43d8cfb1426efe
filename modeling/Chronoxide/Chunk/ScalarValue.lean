import Chronoxide.Chunk.Record

/-! Typed values read for their scalars only: the schema is checked but reduced to what is needed
to skip a value, and buckets and quantiles are skipped (`decode_scalar_projection_schema`,
`decode_scalar_projection_value`). -/

namespace Chronoxide
open Codec Parser UInt64 List

inductive ScalarProjectionSchema
  | histogram (bucketLen : Nat)
  | exponentialHistogram
  | summary (quantileLen : Nat)
  deriving DecidableEq, Repr

/-- `n` doubles, each accepted by `check` and above the one before it. -/
def skipAscending (check : F64 → Bool) (message : String) : Nat → Option F64 → Reader Unit
  | 0, _ => return ()
  | n + 1, previous => do
    let x ← readF64
    Parser.ensure (check x ∧ ¬previous.any (F64.ge · x)) (invalidData message)
    skipAscending check message n (some x)

def decodeScalarHistogramSchema : Reader ScalarProjectionSchema := do
  let boundsLen ← decodeLen
  ensureMinimumEncodedItems boundsLen 8 "histogram schema bounds"
  skipAscending F64.isFinite
    "histogram explicit bounds must be finite and strictly ascending" boundsLen none
  let bucketLen ← decodeLen
  Parser.ensure (boundsLen + 1 < 2 ^ 64) (invalidData "histogram bucket length overflows")
  Parser.ensure (bucketLen = boundsLen + 1)
    (invalidData "histogram bucket length must equal explicit bounds plus one")
  return .histogram bucketLen

def decodeScalarExponentialHistogramSchema : Reader ScalarProjectionSchema := do
  let _scale ← decodeI32
  let _zeroThreshold ← readF64
  return .exponentialHistogram

def decodeScalarSummarySchema : Reader ScalarProjectionSchema := do
  let quantileLen ← decodeLen
  ensureMinimumEncodedItems quantileLen 8 "summary schema quantiles"
  skipAscending (fun q => q.isFinite && q.inUnitRange) quantilePositionsMessage quantileLen none
  return .summary quantileLen

def decodeScalarProjectionSchema (kind : ChunkKind) (schemaBuf : Bytes) :
    Except IoError ScalarProjectionSchema :=
  match kind with
  | .histogram => decodeWhole decodeScalarHistogramSchema "schema buffer has trailing bytes" schemaBuf
  | .exponentialHistogram =>
    decodeWhole decodeScalarExponentialHistogramSchema "schema buffer has trailing bytes" schemaBuf
  | .summary => decodeWhole decodeScalarSummarySchema "schema buffer has trailing bytes" schemaBuf
  | .float | .int64 =>
    .error (invalidInput "scalar projection schema requires typed chunk kind")

def countTotalLoop (field : String) : Nat → UInt64 → Reader UInt64
  | 0, total => return total
  | n + 1, total => do
    let value ← decodeVarint
    let total ← Parser.ofOption (checkedAddU64 total value)
      (invalidData (field ++ " bucket total overflows u64"))
    countTotalLoop field n total

def decodeCountTotal (count : Nat) (field : String) : Reader UInt64 := do
  ensureMinimumEncodedItems count 1 "skipped varints"
  countTotalLoop field count 0

def decodeExponentialHistogramBucketTotal : Reader UInt64 := do
  let _offset ← decodeI32
  let len ← decodeLen
  decodeCountTotal len "exponential histogram"

def skipF64s (count : Nat) : Reader Unit := do
  ensureMinimumEncodedItems count 8 "skipped f64 values"
  let _ ← readF64.times count
  return ()

def decodeScalarProjectionValue (kind : ChunkKind) (schema : ScalarProjectionSchema) :
    Reader (TypedSampleMetadata × UInt64 × Option F64) := do
  let metadata ← decodeTypedMetadata
  match kind, schema with
  | .histogram, .histogram bucketLen =>
    let count ← decodeVarint
    let sum ← decodeOptF64
    let _min ← decodeOptF64
    let _max ← decodeOptF64
    let bucketTotal ← decodeCountTotal bucketLen "histogram"
    Parser.ensure (bucketTotal = count) (invalidData "histogram bucket total must equal count")
    return (metadata, count, sum)
  | .exponentialHistogram, .exponentialHistogram =>
    let count ← decodeVarint
    let sum ← decodeOptF64
    let _min ← decodeOptF64
    let _max ← decodeOptF64
    let zeroCount ← decodeVarint
    let positiveTotal ← decodeExponentialHistogramBucketTotal
    let negativeTotal ← decodeExponentialHistogramBucketTotal
    let bucketTotal ← Parser.ofOption
      ((checkedAddU64 zeroCount positiveTotal).bind (checkedAddU64 · negativeTotal))
      (invalidData "exponential histogram bucket total overflows u64")
    Parser.ensure (bucketTotal = count)
      (invalidData "exponential histogram bucket total must equal count")
    return (metadata, count, sum)
  | .summary, .summary quantileLen =>
    let count ← decodeVarint
    let sum ← readF64
    skipF64s quantileLen
    return (metadata, count, some sum)
  | _, _ => Parser.fail (invalidData "scalar projection schema kind mismatch")

def scalars {T : Type} [TypedCounterValue T] (v : T) : TypedSampleMetadata × UInt64 × Option F64 :=
  (TypedCounterValue.metadata v, TypedCounterValue.count v, TypedCounterValue.sum v)

section Skip
variable {bs rest : Bytes}

theorem skipAscending_ok {check : F64 → Bool} {message : String} {n : Nat} {previous : Option F64}
    {u : Unit} :
    skipAscending check message n previous bs = .ok (u, rest) ↔
      ∃ xs : List F64, xs.length = n ∧ (∀ x ∈ xs, check x) ∧ ascendingFrom previous xs ∧
        bs = encodeF64s xs ++ rest := by
  induction n generalizing previous bs with
  | zero =>
    simp only [skipAscending, pure_ok, length_eq_zero_iff]
    constructor
    · rintro ⟨-, rfl⟩
      exact ⟨[], rfl, by simp, rfl, rfl⟩
    · rintro ⟨xs, rfl, -, -, rfl⟩
      exact ⟨trivial, rfl⟩
  | succ n ih =>
    simp only [skipAscending, bind_ok, readF64_ok, ensure_ok, exists_ensure, ih]
    constructor
    · rintro ⟨x, _, rfl, ⟨hcheck, hprev⟩, xs, rfl, hchecks, hasc, rfl⟩
      refine ⟨x :: xs, rfl, by simpa using ⟨hcheck, hchecks⟩, ?_, ?_⟩
      · rw [ascendingFrom]
        simpa using ⟨by simpa using hprev, hasc⟩
      · rw [encodeF64s, encodeF64s, flatMap_cons, append_assoc]
    rintro ⟨xs, hlen, hchecks, hasc, rfl⟩
    obtain ⟨x, xs, rfl⟩ := exists_cons_of_length_pos (by omega : 0 < xs.length)
    simp only [mem_cons, forall_eq_or_imp] at hchecks
    rw [ascendingFrom, Bool.and_eq_true, Bool.not_eq_true'] at hasc
    refine ⟨x, encodeF64s xs ++ rest, ?_, ⟨hchecks.1, by simp [hasc.1]⟩, xs, Nat.succ.inj hlen,
      hchecks.2, hasc.2, rfl⟩
    rw [encodeF64s, encodeF64s, flatMap_cons, append_assoc]

theorem countTotalLoop_ok {field : String} {n : Nat} {acc total : UInt64} :
    countTotalLoop field n acc bs = .ok (total, rest) ↔
      ∃ xs : List UInt64, xs.length = n ∧ acc.toNat + countSum xs = total.toNat ∧
        bs = encodeVarints xs ++ rest := by
  induction n generalizing acc bs with
  | zero =>
    simp only [countTotalLoop, pure_ok, length_eq_zero_iff]
    constructor
    · rintro ⟨rfl, rfl⟩
      exact ⟨[], rfl, rfl, rfl⟩
    · rintro ⟨xs, rfl, htotal, rfl⟩
      exact ⟨UInt64.toNat_inj.mp htotal, rfl⟩
  | succ n ih =>
    simp only [countTotalLoop, bind_ok, decodeVarint_ok, ofOption_ok, checkedAddU64_eq_some, ih]
    have hsum : ∀ (x : UInt64) xs, countSum (x :: xs) = x.toNat + countSum xs := by
      simp [countSum]
    constructor
    · rintro ⟨x, _, rfl, acc', _, ⟨hacc, rfl⟩, xs, rfl, htotal, rfl⟩
      refine ⟨x :: xs, rfl, by rw [hsum]; omega, ?_⟩
      rw [encodeVarints, encodeVarints, flatMap_cons, append_assoc]
    rintro ⟨xs, hlen, htotal, rfl⟩
    obtain ⟨x, xs, rfl⟩ := exists_cons_of_length_pos (by omega : 0 < xs.length)
    rw [hsum] at htotal
    have hlt := total.toNat_lt
    refine ⟨x, encodeVarints xs ++ rest, ?_, UInt64.ofNat (acc.toNat + x.toNat), _, ⟨?_, rfl⟩, xs,
      Nat.succ.inj hlen, ?_, rfl⟩
    · rw [encodeVarints, encodeVarints, flatMap_cons, append_assoc]
    · rw [UInt64.toNat_ofNat_of_lt' (by simp only [UInt64.size]; omega)]
    · rw [UInt64.toNat_ofNat_of_lt' (by simp only [UInt64.size]; omega)]
      omega

theorem decodeCountTotal_ok {n : Nat} {field : String} (message : String) {total : UInt64} :
    decodeCountTotal n field bs = .ok (total, rest) ↔
      ∃ xs, decodeItems decodeVarint n 1 message bs = .ok (xs, rest) ∧
        countSum xs = total.toNat := by
  simp only [decodeCountTotal, ensureMinimumEncodedItems, bind_ok, ensureDecodedItemsFit_ok,
    exists_ensure, countTotalLoop_ok, decodeVarints_ok, UInt64.toNat_zero, Nat.zero_add]
  constructor
  · rintro ⟨⟨hfit, -⟩, xs, hlen, htotal, rfl⟩
    exact ⟨xs, ⟨hfit, hlen, rfl⟩, htotal⟩
  rintro ⟨xs, ⟨hfit, rfl, rfl⟩, htotal⟩
  have hlen := encodeVarints_length_ge xs
  refine ⟨⟨hfit, ?_⟩, xs, rfl, htotal, rfl⟩
  rw [length_append]
  omega

theorem decodeExponentialHistogramBucketTotal_ok (field : String) {total : UInt64} :
    decodeExponentialHistogramBucketTotal bs = .ok (total, rest) ↔
      ∃ b, decodeBuckets field bs = .ok (b, rest) ∧ countSum b.counts = total.toNat := by
  simp only [decodeExponentialHistogramBucketTotal, decodeBuckets, bind_ok, pure_ok,
    decodeCountTotal_ok field]
  constructor
  · rintro ⟨offset, _, hoffset, len, _, hlen, counts, hcounts, htotal⟩
    exact ⟨⟨offset, counts⟩, ⟨offset, _, hoffset, len, _, hlen, counts, _, hcounts, rfl, rfl⟩, htotal⟩
  · rintro ⟨_, ⟨offset, _, hoffset, len, _, hlen, counts, _, hcounts, rfl, rfl⟩, htotal⟩
    exact ⟨offset, _, hoffset, len, _, hlen, counts, hcounts, htotal⟩

theorem skipF64s_ok {n : Nat} (message : String) {u : Unit} :
    skipF64s n bs = .ok (u, rest) ↔ ∃ xs, decodeItems decodeF64 n 8 message bs = .ok (xs, rest) := by
  have hcodes : Parser.Codes readF64 (fun _ => True) encodeF64 := fun _ _ _ => by
    rw [readF64_ok, true_and]
  simp only [skipF64s, decodeItems, ensureMinimumEncodedItems, bind_ok, ensureDecodedItemsFit_ok,
    exists_ensure, pure_ok, hcodes.times n _ _ _, decodeF64_codes.times n _ _ _]
  constructor
  · rintro ⟨hfit, xs, _, hxs, -, rfl⟩
    exact ⟨xs, hfit, hxs⟩
  · rintro ⟨xs, hfit, hxs⟩
    exact ⟨hfit, xs, _, hxs, trivial, rfl⟩

end Skip

def HistogramSchema.scalar (s : HistogramSchema) : ScalarProjectionSchema := .histogram s.bucketLen

def ExponentialHistogramSchema.scalar (_ : ExponentialHistogramSchema) : ScalarProjectionSchema :=
  .exponentialHistogram

def SummarySchema.scalar (s : SummarySchema) : ScalarProjectionSchema :=
  .summary s.quantiles.length

theorem decodeScalarHistogramSchema_projects :
    Parser.Projects decodeScalarHistogramSchema HistogramValue.decodeSchema
      HistogramSchema.scalar := by
  intro bs c rest
  simp only [decodeScalarHistogramSchema, HistogramValue.decodeSchema, ensureMinimumEncodedItems,
    bind_ok, decodeLen_ok, ensureDecodedItemsFit_ok, decodeF64s_ok, skipAscending_ok,
    ensure_ok, exists_ensure, pure_ok, BoundsOk, strictlyAscending_eq]
  constructor
  · rintro ⟨n, _, ⟨hn, rfl⟩, ⟨hfit, -⟩, u, _, ⟨bounds, rfl, hfinite, hasc, rfl⟩, m, _, ⟨hm, rfl⟩, hover,
      rfl, rfl, rfl⟩
    exact ⟨⟨bounds, bounds.length + 1⟩, ⟨_, _, ⟨hn, rfl⟩, bounds, _, ⟨hfit, rfl, rfl⟩, _, _, ⟨hm, rfl⟩,
      hover, rfl, ⟨hfinite, hasc⟩, rfl, rfl⟩, rfl⟩
  rintro ⟨_, ⟨n, _, ⟨hn, rfl⟩, bounds, _, ⟨hfit, rfl, rfl⟩, m, _, ⟨hm, rfl⟩, hover, rfl,
    ⟨hfinite, hasc⟩, rfl, rfl⟩, rfl⟩
  refine ⟨_, _, ⟨hn, rfl⟩, ⟨hfit, ?_⟩, (), _, ⟨bounds, rfl, hfinite, hasc, rfl⟩, _, _, ⟨hm, rfl⟩, hover,
    rfl, rfl, rfl⟩
  rw [length_append, encodeF64s_length]
  omega

theorem decodeScalarExponentialHistogramSchema_projects :
    Parser.Projects decodeScalarExponentialHistogramSchema ExponentialHistogramValue.decodeSchema
      ExponentialHistogramSchema.scalar := by
  intro bs c rest
  simp only [decodeScalarExponentialHistogramSchema, ExponentialHistogramValue.decodeSchema,
    bind_ok, readF64_ok, decodeF64_ok, pure_ok]
  constructor
  · rintro ⟨scale, _, hscale, zero, _, rfl, rfl, rfl⟩
    exact ⟨⟨scale, zero⟩, ⟨scale, _, hscale, zero, _, rfl, rfl, rfl⟩, rfl⟩
  · rintro ⟨_, ⟨scale, _, hscale, zero, _, rfl, rfl, rfl⟩, rfl⟩
    exact ⟨scale, _, hscale, zero, _, rfl, rfl, rfl⟩

theorem decodeScalarSummarySchema_projects :
    Parser.Projects decodeScalarSummarySchema SummaryValue.decodeSchema SummarySchema.scalar := by
  intro bs c rest
  simp only [decodeScalarSummarySchema, SummaryValue.decodeSchema, ensureMinimumEncodedItems,
    bind_ok, decodeLen_ok, ensureDecodedItemsFit_ok, decodeF64s_ok, skipAscending_ok, lift_ok,
    validateSummaryQuantilePositions_ok, exists_ensure, pure_ok, QuantilesOk, Bool.and_eq_true]
  constructor
  · rintro ⟨n, _, ⟨hn, rfl⟩, ⟨hfit, -⟩, u, _, ⟨qs, rfl, hrange, hasc, rfl⟩, rfl, rfl⟩
    exact ⟨⟨qs⟩, ⟨_, _, ⟨hn, rfl⟩, qs, _, ⟨hfit, rfl, rfl⟩, ⟨hrange, hasc⟩, rfl, rfl⟩, rfl⟩
  rintro ⟨_, ⟨n, _, ⟨hn, rfl⟩, qs, _, ⟨hfit, rfl, rfl⟩, ⟨hrange, hasc⟩, rfl, rfl⟩, rfl⟩
  refine ⟨_, _, ⟨hn, rfl⟩, ⟨hfit, ?_⟩, (), _, ⟨qs, rfl, hrange, hasc, rfl⟩, rfl, rfl⟩
  rw [length_append, encodeF64s_length]
  omega

theorem decodeScalarProjectionValue_histogram (s : HistogramSchema) :
    Parser.Projects (decodeScalarProjectionValue .histogram s.scalar)
      (HistogramValue.decodeValueWithSchema s) scalars := by
  intro bs c rest
  simp only [decodeScalarProjectionValue, HistogramSchema.scalar,
    HistogramValue.decodeValueWithSchema, bind_ok, lift_ok, checkedCountTotal_ok, ensure_ok,
    exists_ensure, pure_ok, decodeCountTotal_ok "histogram schema bucket counts"]
  constructor
  · rintro ⟨md, _, hmd, count, _, hcount, sum, _, hsum, mn, _, hmn, mx, _, hmx, total, _,
      ⟨counts, hcounts, htotal⟩, rfl, rfl, rfl⟩
    exact ⟨_, ⟨md, _, hmd, _, _, hcount, sum, _, hsum, mn, _, hmn, mx, _, hmx, counts, _, hcounts, _, _,
      ⟨htotal, rfl⟩, rfl, rfl, rfl⟩, rfl⟩
  rintro ⟨_, ⟨md, _, hmd, count, _, hcount, sum, _, hsum, mn, _, hmn, mx, _, hmx, counts, _, hcounts,
    total, _, ⟨htotal, rfl⟩, rfl, rfl, rfl⟩, rfl⟩
  exact ⟨md, _, hmd, _, _, hcount, sum, _, hsum, mn, _, hmn, mx, _, hmx, _, _, ⟨counts, hcounts, htotal⟩,
    rfl, rfl, rfl⟩

-- The partial sums overflow exactly when the whole sum does.
theorem checkedAddU64_bind {a b c d : UInt64} :
    (checkedAddU64 a b).bind (checkedAddU64 · c) = some d ↔
      a.toNat + b.toNat + c.toNat = d.toNat := by
  simp only [Option.bind_eq_some_iff, checkedAddU64_eq_some]
  constructor
  · rintro ⟨x, hx, hd⟩
    omega
  intro hd
  have hlt := d.toNat_lt
  have hx : (ofNat (a.toNat + b.toNat)).toNat = a.toNat + b.toNat :=
    toNat_ofNat_of_lt' (by simp only [size]; omega)
  exact ⟨_, hx.symm, by omega⟩

theorem decodeScalarProjectionValue_exponentialHistogram (s : ExponentialHistogramSchema) :
    Parser.Projects (decodeScalarProjectionValue .exponentialHistogram s.scalar)
      (ExponentialHistogramValue.decodeValueWithSchema s) scalars := by
  intro bs c rest
  simp only [decodeScalarProjectionValue, ExponentialHistogramSchema.scalar,
    ExponentialHistogramValue.decodeValueWithSchema, bind_ok, lift_ok, ofOption_ok,
    checkedAddU64_bind, validateExponentialHistogramShape_ok, ensure_ok, exists_ensure, pure_ok]
  constructor
  · rintro ⟨md, _, hmd, count, _, hcount, sum, _, hsum, mn, _, hmn, mx, _, hmx, zero, _, hzero, pos, _,
      hpos, neg, _, hneg, total, _, ⟨htotal, rfl⟩, rfl, rfl, rfl⟩
    obtain ⟨pb, hpb, hpos⟩ := (decodeExponentialHistogramBucketTotal_ok
      "positive exponential histogram bucket counts").mp hpos
    obtain ⟨nb, hnb, hneg⟩ := (decodeExponentialHistogramBucketTotal_ok
      "negative exponential histogram bucket counts").mp hneg
    exact ⟨_, ⟨md, _, hmd, _, _, hcount, sum, _, hsum, mn, _, hmn, mx, _, hmx, zero, _, hzero, pb, _, hpb,
      nb, _, hnb, by omega, rfl, rfl⟩, rfl⟩
  rintro ⟨_, ⟨md, _, hmd, count, _, hcount, sum, _, hsum, mn, _, hmn, mx, _, hmx, zero, _, hzero, pb, _,
    hpb, nb, _, hnb, htotal, rfl, rfl⟩, rfl⟩
  have hlt := count.toNat_lt
  have hpos := (decodeExponentialHistogramBucketTotal_ok _).mpr ⟨pb, hpb,
    (toNat_ofNat_of_lt' (show countSum pb.counts < size by
      simp only [size]; omega)).symm⟩
  have hneg := (decodeExponentialHistogramBucketTotal_ok _).mpr ⟨nb, hnb,
    (toNat_ofNat_of_lt' (show countSum nb.counts < size by
      simp only [size]; omega)).symm⟩
  refine ⟨md, _, hmd, count, _, hcount, sum, _, hsum, mn, _, hmn, mx, _, hmx, zero, _, hzero, _, _, hpos,
    _, _, hneg, count, _, ⟨?_, rfl⟩, rfl, rfl, rfl⟩
  rw [toNat_ofNat_of_lt' (by simp only [size]; omega),
    toNat_ofNat_of_lt' (by simp only [size]; omega), htotal]

theorem decodeScalarProjectionValue_summary (s : SummarySchema) :
    Parser.Projects (decodeScalarProjectionValue .summary s.scalar)
      (SummaryValue.decodeValueWithSchema s) scalars := by
  intro bs c rest
  simp only [decodeScalarProjectionValue, SummarySchema.scalar, SummaryValue.decodeValueWithSchema,
    bind_ok, readF64_ok, decodeF64_ok, skipF64s_ok "summary values", pure_ok]
  constructor
  · rintro ⟨md, _, hmd, count, _, hcount, sum, _, rfl, u, _, ⟨values, hvalues⟩, rfl, rfl⟩
    exact ⟨_, ⟨md, _, hmd, count, _, hcount, sum, _, rfl, values, _, hvalues, rfl, rfl⟩, rfl⟩
  · rintro ⟨_, ⟨md, _, hmd, count, _, hcount, sum, _, rfl, values, _, hvalues, rfl, rfl⟩, rfl⟩
    exact ⟨md, _, hmd, count, _, hcount, sum, _, rfl, (), _, ⟨values, hvalues⟩, rfl, rfl⟩

end Chronoxide
