import Chronoxide.Chunk.Projection
import Chronoxide.Collections.OrderedMap
import Chronoxide.Query.Result

/-! Counters projected from typed samples: `_count`, `_sum`, `_bucket` and the quantiles, once over
the samples of the head (`head/projection.rs`) and once over those of a chunk
(`segment/query_reader/projection.rs`, `segment/query_reader/cached_query_decode.rs`). -/

namespace Chronoxide

inductive BucketLeMatcher
  | eq (value : String)
  | notEq (value : String)
  | regex (pattern : String)
  | notRegex (pattern : String)
  deriving DecidableEq, Repr

inductive BucketLeFilter
  | all
  | exact (value : String)
  | matchers (matchers : List BucketLeMatcher)
  deriving DecidableEq, Repr

inductive SegmentProjection
  | none
  | allPromql (exponentialHistogramBoundaries : List F64)
  | count
  | sum
  | histogramBucket (le : BucketLeFilter) (exponentialHistogramBoundaries : List F64)
  | nativeHistogram
  | nativeExponentialHistogram
  | summaryQuantile (quantile : Option String)
  deriving DecidableEq, Repr

inductive CompiledBucketLeMatcher
  | eq (value : String)
  | notEq (value : String)
  | regex (pattern : Regex)
  | notRegex (pattern : Regex)

def CompiledBucketLeMatcher.matches (value : String) : CompiledBucketLeMatcher → Bool
  | .eq expected => expected = value
  | .notEq expected => expected ≠ value
  | .regex pattern => pattern.isMatch value
  | .notRegex pattern => !pattern.isMatch value

inductive CompiledBucketLeFilter
  | all
  | exact (value : String)
  | matchers (matchers : List CompiledBucketLeMatcher)

def CompiledBucketLeFilter.matches (value : String) : CompiledBucketLeFilter → Bool
  | .all => true
  | .exact expected => expected = value
  | .matchers compiled => compiled.all (·.matches value)

/-- What the projections take from elsewhere: operations on doubles, the texts of doubles, the
hash of a label row and the regex engine. -/
structure ProjectionEnv where
  ops : FloatOps
  powi : F64 → Int32 → F64
  powf : F64 → F64 → F64
  formatPromqlFloatLabel : F64 → String
  segmentSeriesId : LabelRow → UInt64
  regexNew : RegexSyntax

section Filters
variable (env : ProjectionEnv)

def compileBucketLeMatcher : BucketLeMatcher → Except IoError CompiledBucketLeMatcher
  | .eq value => .ok (.eq value)
  | .notEq value => .ok (.notEq value)
  | .regex pattern =>
    ((compilePromqlRegex env.regexNew pattern).map .regex).mapError invalidInput
  | .notRegex pattern =>
    ((compilePromqlRegex env.regexNew pattern).map .notRegex).mapError invalidInput

def compileBucketLeFilter : BucketLeFilter → Except IoError CompiledBucketLeFilter
  | .all => .ok .all
  | .exact value => .ok (.exact value)
  | .matchers matchers => return .matchers (← matchers.mapM (compileBucketLeMatcher env))

end Filters

def metricNameOf (labels : LabelRow) : String := (labelValue labels metricNameLabel).getD ""

def projectedLabels (baseLabels : LabelRow) (metricName metricSuffix : String)
    (extraLabel : Option (String × String)) : LabelRow :=
  let projectedName := metricName ++ metricSuffix
  let labels := baseLabels.filterMap fun (key, value) =>
    if key = metricNameLabel then some (key, projectedName)
    else if extraLabel.map (·.1) = some key then none
    else some (key, value)
  let metricSeen := baseLabels.any fun label => label.1 = metricNameLabel
  let labels := if metricSeen then labels else labels ++ [(metricNameLabel, projectedName)]
  let labels := labels ++ extraLabel.toList
  labels.mergeSort fun left right => left.1 ≤ right.1

def otlpFlagNoRecordedValue : UInt32 := 1

def TypedSampleMetadata.isStale (metadata : TypedSampleMetadata) : Bool :=
  metadata.flags &&& otlpFlagNoRecordedValue ≠ 0

def deltaProjectionResetHint (started : Bool) : CounterResetHint :=
  if started then .notCounterReset else .counterReset

/-- The running total of a delta counter within a fragment. -/
structure DeltaTotal (α : Type) where
  accumulator : α
  fragmentStarted : Bool
  deriving DecidableEq, Repr

structure ProjectedValue where
  value : F64
  resetHint : CounterResetHint
  deltaInterval : Option DeltaProjectionInterval
  deriving DecidableEq, Repr

def ProjectedValue.pushed (p : ProjectedValue) (timestampMs : UInt64)
    (metadata : TypedSampleMetadata) : PushedSample :=
  ⟨timestampMs, p.value, some (p.resetHint, metadata.temporality, metadata.startTimeMs),
    p.deltaInterval⟩

variable (ops : FloatOps)

def u64CounterValue (total : DeltaTotal UInt64) (metadata : TypedSampleMetadata) (raw : UInt64)
    : DeltaTotal UInt64 × Option ProjectedValue :=
  if metadata.isStale then
    (if metadata.temporality = .delta then ⟨0, false⟩ else total,
      some ⟨prometheusStaleNan, metadata.resetHint, none⟩)
  else if metadata.temporality = .delta then
    let accumulator := saturatingAdd total.accumulator raw
    (⟨accumulator, true⟩,
      some ⟨ops.ofU64 accumulator, deltaProjectionResetHint total.fragmentStarted,
        some (.count raw metadata.resetHint)⟩)
  else (total, some ⟨ops.ofU64 raw, metadata.resetHint, none⟩)

def optionalF64CounterValue (total : DeltaTotal F64) (metadata : TypedSampleMetadata)
    (raw : Option F64) :
    DeltaTotal F64 × Option ProjectedValue :=
  if metadata.isStale then
    (if metadata.temporality = .delta then ⟨F64.zero, false⟩ else total,
      some ⟨prometheusStaleNan, metadata.resetHint, none⟩)
  else match raw with
    | some raw =>
      if metadata.temporality = .delta then
        let accumulator := ops.add total.accumulator raw
        (⟨accumulator, true⟩,
          some ⟨accumulator, deltaProjectionResetHint total.fragmentStarted,
            some (.sum raw metadata.resetHint)⟩)
      else (total, some ⟨raw, metadata.resetHint, none⟩)
    | none => (total, none)

section CounterLoop
variable {A α σ : Type} (value : A → TypedSampleMetadata → α → A × Option ProjectedValue)
  (startMs endMs : UInt64)

/-- One round: samples after the end are skipped, samples before the start only counted. -/
def counterRound (total : A) (sample : UInt64 × TypedSampleMetadata × α) :
    A × Option PushedSample :=
  let (ts, metadata, raw) := sample
  if ts > endMs then (total, none)
  else
    let (next, projected) := value total metadata raw
    (next, if ts ≥ startMs then projected.map (·.pushed ts metadata) else none)

def counterLoop (push : σ → PushedSample → Option σ) :
    A → σ → List (UInt64 × TypedSampleMetadata × α) → Option σ
  | _, out, [] => some out
  | total, out, sample :: rest =>
    match counterRound value startMs endMs total sample with
    | (next, none) => counterLoop push next out rest
    | (next, some pushed) => do counterLoop push next (← push out pushed) rest

end CounterLoop

/-- Running totals of delta buckets under the texts of their bounds. -/
structure BucketTotals where
  accumulators : OrderedMap String UInt64
  fragmentsStarted : Std.TreeSet String (compare : String → String → Ordering)

def BucketTotals.empty : BucketTotals := ⟨{}, {}⟩

def histogramProjectedBucketValue (totals : BucketTotals) (metadata : TypedSampleMetadata)
    (raw : UInt64) (le : String) :
    BucketTotals × F64 × CounterResetHint :=
  if metadata.isStale then
    (if metadata.temporality = .delta then
        ⟨totals.accumulators.insert le 0, totals.fragmentsStarted.erase le⟩
      else totals,
      prometheusStaleNan, metadata.resetHint)
  else if metadata.temporality = .delta then
    let accumulator := saturatingAdd (totals.accumulators[le]?.getD 0) raw
    (⟨totals.accumulators.insert le accumulator, totals.fragmentsStarted.insert le⟩,
      ops.ofU64 accumulator, deltaProjectionResetHint (totals.fragmentsStarted.contains le))
  else (totals, ops.ofU64 raw, metadata.resetHint)

inductive Bucket
  | bound (upper : F64)
  | inf
  deriving DecidableEq, Repr

def Bucket.le (env : ProjectionEnv) : Bucket → String
  | .bound upper => env.formatPromqlFloatLabel upper
  | .inf => "+Inf"

def Bucket.kept (env : ProjectionEnv) (leFilter : CompiledBucketLeFilter) (bucket : Bucket) :
    Option String :=
  if leFilter.matches (bucket.le env) then some (bucket.le env) else none

def cumulativeBuckets : UInt64 → List F64 → List UInt64 → List (Bucket × UInt64)
  | _, [], _ => []
  | cumulative, bound :: bounds, counts =>
    let cumulative := saturatingAdd cumulative (counts.headD 0)
    (.bound bound, cumulative) :: cumulativeBuckets cumulative bounds counts.tail

def HistogramValue.buckets (value : HistogramValue) : List (Bucket × UInt64) :=
  cumulativeBuckets 0 value.explicitBounds value.bucketCounts ++ [(.inf, value.count)]

section BucketLoop
variable {σ T : Type} (ops : FloatOps) (series : σ → Bucket → σ × Option String)
  (push : σ → Bucket → String → PushedSample → Option σ)

def bucketPushed (timestampMs : UInt64) (metadata : TypedSampleMetadata) (raw : UInt64)
    (value : F64) (hint : CounterResetHint) : PushedSample :=
  ⟨timestampMs, value, some (hint, metadata.temporality, metadata.startTimeMs),
    if metadata.temporality = .delta && !metadata.isStale then
      some (.count raw metadata.resetHint)
    else none⟩

/-- The buckets of one sample. `series` finds the text of a bucket's bound unless the filter drops
it, `push` adds to the bucket's series and fails where the code panics. -/
def bucketsLoop (timestampMs : UInt64) (metadata : TypedSampleMetadata) (emit : Bool) :
    BucketTotals → σ → List (Bucket × UInt64) → Option (BucketTotals × σ)
  | totals, out, [] => some (totals, out)
  | totals, out, (bucket, raw) :: rest =>
    match series out bucket with
    | (out, none) => bucketsLoop timestampMs metadata emit totals out rest
    | (out, some le) =>
      let (totals, value, hint) := histogramProjectedBucketValue ops totals metadata raw le
      if emit then do
        let out ← push out bucket le (bucketPushed timestampMs metadata raw value hint)
        bucketsLoop timestampMs metadata emit totals out rest
      else bucketsLoop timestampMs metadata emit totals out rest

variable (buckets : T → List (Bucket × UInt64)) (metadata : T → TypedSampleMetadata)
  (startMs endMs : UInt64)

def bucketSamplesLoop : BucketTotals → σ → List (UInt64 × T) → Option σ
  | _, out, [] => some out
  | totals, out, (ts, value) :: rest =>
    if ts > endMs then bucketSamplesLoop totals out rest
    else do
      let (totals, out) ← bucketsLoop ops series push ts (metadata value) (ts ≥ startMs) totals out
        (buckets value)
      bucketSamplesLoop totals out rest

end BucketLoop

def i32SaturatingAdd (a b : Int32) : Int32 :=
  .ofInt (max (-2 ^ 31) (min (2 ^ 31 - 1) (a.toInt + b.toInt)))

def i32TryFromOrMax (n : Nat) : Int32 := .ofInt (min (2 ^ 31 - 1) n)

def F64.neg (x : F64) : F64 := ⟨x.bits ^^^ 0x8000000000000000⟩

def F64.two : F64 := ⟨0x4000000000000000⟩

def F64.infinity : F64 := ⟨0x7ff0000000000000⟩

section Exponential
variable (env : ProjectionEnv)

def exponentialHistogramBase (scale : Int32) : F64 := env.powf .two (env.powi .two (-scale))

/-- The counts whose bucket, by its index, has an upper bound up to `le`. -/
def bucketCountLe (upper : Int32 → F64) (buckets : ExponentialHistogramBuckets) (le : F64) :
    UInt64 :=
  let counts := buckets.counts.zipIdx.filterMap fun (count, idx) =>
    let bucketIndex := i32SaturatingAdd buckets.offset (i32TryFromOrMax idx)
    if F64.le (upper bucketIndex) le then some count else none
  counts.foldl saturatingAdd 0

def exponentialHistogramPositiveBucketCountLe (base : F64) :
    ExponentialHistogramBuckets → F64 → UInt64 :=
  bucketCountLe fun index => env.powi base (i32SaturatingAdd index 1)

def exponentialHistogramNegativeBucketCountLe (base : F64) :
    ExponentialHistogramBuckets → F64 → UInt64 :=
  bucketCountLe fun index => (env.powi base index).neg

def exponentialHistogramProjectedBucketCount (value : ExponentialHistogramValue) (le : F64) :
    UInt64 :=
  if le = .infinity then value.count
  else
    let base := exponentialHistogramBase env value.scale
    let negative := exponentialHistogramNegativeBucketCountLe env base value.negative le
    let zero := if F64.ge le value.zeroThreshold then value.zeroCount else 0
    let positive := exponentialHistogramPositiveBucketCountLe env base value.positive le
    let total := saturatingAdd (saturatingAdd negative zero) positive
    if total ≤ value.count then total else value.count

def ExponentialHistogramValue.buckets (boundaries : List F64) (value : ExponentialHistogramValue) :
    List (Bucket × UInt64) :=
  (boundaries.map fun boundary =>
    (.bound boundary, exponentialHistogramProjectedBucketCount env value boundary)) ++
    [(.inf, value.count)]

end Exponential

abbrev ProjectedSeries := OrderedMap Nat SegmentQueryResult

def pushSeries (out : ProjectedSeries) (seriesId : UInt64) (labels : LabelRow) (s : PushedSample) :
    ProjectedSeries :=
  out.insert seriesId.toNat ((out[seriesId.toNat]?.getD (.new seriesId labels)).push s)

def pushProjectedSample (env : ProjectionEnv) (out : ProjectedSeries) (labels : LabelRow)
    (s : PushedSample) : ProjectedSeries :=
  pushSeries out (env.segmentSeriesId labels) labels s

/-- The labels are taken by the first sample of a series; `none` where `expect` panics. -/
def pushProjectedSampleWithCachedSeries (out : ProjectedSeries) (seriesId : UInt64)
    (labels : Option LabelRow) (s : PushedSample) : Option (ProjectedSeries × Option LabelRow) :=
  match out[seriesId.toNat]?, labels with
  | some result, labels => some (out.insert seriesId.toNat (result.push s), labels)
  | none, some labels =>
    some (out.insert seriesId.toNat ((SegmentQueryResult.new seriesId labels).push s), none)
  | none, none => none

section Quantiles
variable (env : ProjectionEnv) (baseLabels : LabelRow) (startMs endMs : UInt64)

/-- The quantiles of the samples in range, by both `project_summary_quantile_samples` and the
head. -/
def projectSummaryQuantileSamples (quantileFilter : Option String) (out : ProjectedSeries)
    (values : List (UInt64 × SummaryValue)) : ProjectedSeries :=
  values.foldl (fun out (ts, value) =>
    if ts < startMs || ts > endMs then out
    else value.quantiles.foldl (fun out quantile =>
      let label := env.formatPromqlFloatLabel quantile.quantile
      if quantileFilter.any (· ≠ label) then out
      else
        let labels := projectedLabels baseLabels (metricNameOf baseLabels) ""
          (some ("quantile", label))
        let projected := if value.metadata.isStale then prometheusStaleNan else quantile.value
        pushProjectedSample env out labels ⟨ts, projected, none, none⟩) out) out

end Quantiles

def bucketLabels (baseLabels : LabelRow) (le : String) : LabelRow :=
  projectedLabels baseLabels (metricNameOf baseLabels) "_bucket" (some ("le", le))

def counterLabels (baseLabels : LabelRow) (metricSuffix : String) : LabelRow :=
  projectedLabels baseLabels (metricNameOf baseLabels) metricSuffix none

section Counters
variable {T : Type} [TypedCounterValue T]

def countSamples (values : List (UInt64 × T)) : List (UInt64 × TypedSampleMetadata × UInt64) :=
  values.map fun (ts, v) => (ts, TypedCounterValue.metadata v, TypedCounterValue.count v)

def sumSamples (values : List (UInt64 × T)) : List (UInt64 × TypedSampleMetadata × Option F64) :=
  values.map fun (ts, v) => (ts, TypedCounterValue.metadata v, TypedCounterValue.sum v)

end Counters

section Paths
variable (env : ProjectionEnv) (baseLabels : LabelRow) (startMs endMs : UInt64)

def pushHeadCounter (metricSuffix : String) (out : ProjectedSeries) (s : PushedSample) :
    Option ProjectedSeries :=
  some (pushProjectedSample env out (counterLabels baseLabels metricSuffix) s)

variable (out : ProjectedSeries)

def projectHeadTypedCountSamples {T : Type} [TypedCounterValue T] (values : List (UInt64 × T)) :
    Option ProjectedSeries :=
  counterLoop (u64CounterValue env.ops) startMs endMs (pushHeadCounter env baseLabels "_count")
    ⟨0, false⟩ out (countSamples values)

def projectHeadTypedSumSamples {T : Type} [TypedCounterValue T] (values : List (UInt64 × T)) :
    Option ProjectedSeries :=
  counterLoop (optionalF64CounterValue env.ops) startMs endMs
    (pushHeadCounter env baseLabels "_sum") ⟨F64.zero, false⟩ out (sumSamples values)

variable (leFilter : CompiledBucketLeFilter)

def headBucketSeries (out : ProjectedSeries) (bucket : Bucket) : ProjectedSeries × Option String :=
  (out, bucket.kept env leFilter)

def pushHeadBucket (_ : Bucket) (le : String) (s : PushedSample) : Option ProjectedSeries :=
  some (pushProjectedSample env out (bucketLabels baseLabels le) s)

def projectHeadHistogramBucketSamples (out : ProjectedSeries)
    (values : List (UInt64 × HistogramValue)) : Option ProjectedSeries :=
  bucketSamplesLoop env.ops (headBucketSeries env leFilter) (pushHeadBucket env baseLabels)
    HistogramValue.buckets (·.metadata) startMs endMs .empty out values

def projectHeadExponentialHistogramBucketSamples (boundaries : List F64) (out : ProjectedSeries)
    (values : List (UInt64 × ExponentialHistogramValue)) : Option ProjectedSeries :=
  bucketSamplesLoop env.ops (headBucketSeries env leFilter) (pushHeadBucket env baseLabels)
    (ExponentialHistogramValue.buckets env boundaries) (·.metadata) startMs endMs .empty out values

variable (projection : SegmentProjection) (samples : ChunkSamples)

def projectHeadSelected : Except IoError (Option ProjectedSeries) :=
  match projection, samples with
  | .count, .histogram values =>
    .ok (projectHeadTypedCountSamples env baseLabels startMs endMs {} values)
  | .count, .exponentialHistogram values =>
    .ok (projectHeadTypedCountSamples env baseLabels startMs endMs {} values)
  | .count, .summary values =>
    .ok (projectHeadTypedCountSamples env baseLabels startMs endMs {} values)
  | .sum, .histogram values =>
    .ok (projectHeadTypedSumSamples env baseLabels startMs endMs {} values)
  | .sum, .exponentialHistogram values =>
    .ok (projectHeadTypedSumSamples env baseLabels startMs endMs {} values)
  | .sum, .summary values =>
    .ok (projectHeadTypedSumSamples env baseLabels startMs endMs {} values)
  | .histogramBucket le _, .histogram values => do
    let leFilter ← compileBucketLeFilter env le
    return projectHeadHistogramBucketSamples env baseLabels startMs endMs leFilter {} values
  | .histogramBucket le boundaries, .exponentialHistogram values => do
    let leFilter ← compileBucketLeFilter env le
    return projectHeadExponentialHistogramBucketSamples env baseLabels startMs endMs leFilter
      boundaries {} values
  | .summaryQuantile quantile, .summary values =>
    .ok (some (projectSummaryQuantileSamples env baseLabels startMs endMs quantile {} values))
  | _, _ => .ok (some {})

/-- Count, sum and then the series of another projection, each entered under its id. -/
def projectHeadAll {T : Type} [TypedCounterValue T] (rest : SegmentProjection)
    (samples : List (UInt64 × T) → ChunkSamples) (values : List (UInt64 × T)) :
    Except IoError (Option ProjectedSeries) := do
  let counters := do
    let out ← projectHeadTypedCountSamples env baseLabels startMs endMs {} values
    projectHeadTypedSumSamples env baseLabels startMs endMs out values
  let results ← projectHeadSelected env baseLabels startMs endMs rest (samples values)
  return do
    let out ← counters
    let results ← results
    return (results.toList.map (·.2)).foldl (fun out r => out.insert r.seriesId.toNat r) out

def projectHeadSeriesSamples : Except IoError (Option (List SegmentQueryResult)) := do
  let out ← match projection, samples with
    | .allPromql _, .histogram values =>
      projectHeadAll env baseLabels startMs endMs (.histogramBucket .all []) .histogram values
    | .allPromql boundaries, .exponentialHistogram values =>
      projectHeadAll env baseLabels startMs endMs (.histogramBucket .all boundaries)
        .exponentialHistogram values
    | .allPromql _, .summary values =>
      projectHeadAll env baseLabels startMs endMs (.summaryQuantile none) .summary values
    | projection, samples => projectHeadSelected env baseLabels startMs endMs projection samples
  return out.map fun out => out.toList.map (·.2)

def pushCachedCounter (seriesId : UInt64) (out : ProjectedSeries × Option LabelRow)
    (s : PushedSample) : Option (ProjectedSeries × Option LabelRow) :=
  pushProjectedSampleWithCachedSeries out.1 seriesId out.2 s

def projectTypedCountSamples {T : Type} [TypedCounterValue T] (values : List (UInt64 × T)) :
    Option ProjectedSeries :=
  let labels := counterLabels baseLabels "_count"
  (counterLoop (u64CounterValue env.ops) startMs endMs
    (pushCachedCounter (env.segmentSeriesId labels)) ⟨0, false⟩ (out, some labels)
    (countSamples values)).map (·.1)

def projectTypedSumSamples {T : Type} [TypedCounterValue T] (values : List (UInt64 × T)) :
    Option ProjectedSeries :=
  let labels := counterLabels baseLabels "_sum"
  (counterLoop (optionalF64CounterValue env.ops) startMs endMs
    (pushCachedCounter (env.segmentSeriesId labels)) ⟨F64.zero, false⟩ (out, some labels)
    (sumSamples values)).map (·.1)

/-- `CachedHistogramBucketSeries` of a bound that the filter keeps. -/
structure CachedBucketSeries where
  le : String
  seriesId : UInt64
  labels : Option LabelRow

/-- The series by the bits of their bounds, `none` for a bound the filter drops. -/
structure CachedBuckets where
  out : ProjectedSeries
  byBound : OrderedMap Nat (Option CachedBucketSeries)
  inf : Option (UInt64 × Option LabelRow)

variable (leFilter : CompiledBucketLeFilter)

def newCachedBucketSeries (bound : F64) : Option CachedBucketSeries :=
  ((Bucket.bound bound).kept env leFilter).map fun le =>
    let labels := bucketLabels baseLabels le
    ⟨le, env.segmentSeriesId labels, some labels⟩

def cachedBucketSeries (s : CachedBuckets) : Bucket → CachedBuckets × Option String
  | .bound bound =>
    match s.byBound[bound.bits.toNat]? with
    | some entry => (s, entry.map (·.le))
    | none =>
      let entry := newCachedBucketSeries env baseLabels leFilter bound
      ({ s with byBound := s.byBound.insert bound.bits.toNat entry }, entry.map (·.le))
  | .inf => (s, Bucket.inf.kept env leFilter)

def pushCachedBucket (s : CachedBuckets) (bucket : Bucket) (_ : String) (pushed : PushedSample) :
    Option CachedBuckets :=
  match bucket with
  | .bound bound =>
    match s.byBound[bound.bits.toNat]? with
    | some (some entry) => do
      let (out, labels) ←
        pushProjectedSampleWithCachedSeries s.out entry.seriesId entry.labels pushed
      return { s with
        out, byBound := s.byBound.insert bound.bits.toNat (some { entry with labels }) }
    | _ => none
  | .inf => do
    let infLabels := bucketLabels baseLabels "+Inf"
    let (seriesId, labels) := s.inf.getD (env.segmentSeriesId infLabels, some infLabels)
    let (out, labels) ← pushProjectedSampleWithCachedSeries s.out seriesId labels pushed
    return { s with out, inf := some (seriesId, labels) }

def projectHistogramBucketSamples (out : ProjectedSeries) (values : List (UInt64 × HistogramValue))
    : Option ProjectedSeries :=
  (bucketSamplesLoop env.ops (cachedBucketSeries env baseLabels leFilter)
    (pushCachedBucket env baseLabels) HistogramValue.buckets (·.metadata) startMs endMs .empty
    ⟨out, {}, none⟩ values).map (·.out)

def projectExponentialHistogramBucketSamples (boundaries : List F64) (out : ProjectedSeries)
    (values : List (UInt64 × ExponentialHistogramValue)) : Option ProjectedSeries :=
  projectHeadExponentialHistogramBucketSamples env baseLabels startMs endMs leFilter boundaries out
    values

def projectChunkSamples : Except IoError (Option ProjectedSeries) :=
  match projection, samples with
  | .count, .histogram values =>
    .ok (projectTypedCountSamples env baseLabels startMs endMs {} values)
  | .count, .exponentialHistogram values =>
    .ok (projectTypedCountSamples env baseLabels startMs endMs {} values)
  | .count, .summary values =>
    .ok (projectTypedCountSamples env baseLabels startMs endMs {} values)
  | .sum, .histogram values =>
    .ok (projectTypedSumSamples env baseLabels startMs endMs {} values)
  | .sum, .exponentialHistogram values =>
    .ok (projectTypedSumSamples env baseLabels startMs endMs {} values)
  | .sum, .summary values =>
    .ok (projectTypedSumSamples env baseLabels startMs endMs {} values)
  | .histogramBucket le _, .histogram values => do
    let leFilter ← compileBucketLeFilter env le
    return projectHistogramBucketSamples env baseLabels startMs endMs leFilter {} values
  | .histogramBucket le boundaries, .exponentialHistogram values => do
    let leFilter ← compileBucketLeFilter env le
    return projectExponentialHistogramBucketSamples env baseLabels startMs endMs leFilter
      boundaries {} values
  | .summaryQuantile quantile, .summary values =>
    .ok (some (projectSummaryQuantileSamples env baseLabels startMs endMs quantile {} values))
  | .allPromql _, .histogram values => .ok do
    let out ← projectTypedCountSamples env baseLabels startMs endMs {} values
    let out ← projectTypedSumSamples env baseLabels startMs endMs out values
    projectHistogramBucketSamples env baseLabels startMs endMs .all out values
  | .allPromql boundaries, .exponentialHistogram values => .ok do
    let out ← projectTypedCountSamples env baseLabels startMs endMs {} values
    let out ← projectTypedSumSamples env baseLabels startMs endMs out values
    projectExponentialHistogramBucketSamples env baseLabels startMs endMs .all boundaries out values
  | .allPromql _, .summary values => .ok do
    let out ← projectTypedCountSamples env baseLabels startMs endMs {} values
    let out ← projectTypedSumSamples env baseLabels startMs endMs out values
    return projectSummaryQuantileSamples env baseLabels startMs endMs none out values
  | _, _ => .ok (some {})

def projectSealedSeriesSamples : Except IoError (Option (List SegmentQueryResult)) := do
  let out ← projectChunkSamples env baseLabels startMs endMs projection samples
  return out.map fun out => out.toList.map (·.2)

structure ScalarTotals where
  deltaCountAccumulator : UInt64
  deltaSumAccumulator : F64
  deltaFragmentStarted : Bool

def projectTypedScalarSample (totals : ScalarTotals) (sample : ChunkScalarSample) :
    ScalarTotals × Option PushedSample :=
  if sample.timestampMs > endMs then (totals, none)
  else
    let metadata := sample.metadata
    let emit := sample.timestampMs ≥ startMs
    let pushed := fun value hint interval =>
      if emit then
        some (PushedSample.mk sample.timestampMs value
          (some (hint, metadata.temporality, metadata.startTimeMs)) interval)
      else none
    if metadata.isStale then
      (if metadata.temporality = .delta then ⟨0, F64.zero, false⟩ else totals,
        pushed prometheusStaleNan metadata.resetHint none)
    else match sample.value with
      | some (.count raw) =>
        if metadata.temporality = .delta then
          let accumulator := saturatingAdd totals.deltaCountAccumulator raw
          ({ totals with deltaCountAccumulator := accumulator, deltaFragmentStarted := true },
            pushed (env.ops.ofU64 accumulator)
              (deltaProjectionResetHint totals.deltaFragmentStarted)
              (some (.count raw metadata.resetHint)))
        else (totals, pushed (env.ops.ofU64 raw) metadata.resetHint none)
      | some (.sum raw) =>
        if metadata.temporality = .delta then
          let accumulator := env.ops.add totals.deltaSumAccumulator raw
          ({ totals with deltaSumAccumulator := accumulator, deltaFragmentStarted := true },
            pushed accumulator (deltaProjectionResetHint totals.deltaFragmentStarted)
              (some (.sum raw metadata.resetHint)))
        else (totals, pushed raw metadata.resetHint none)
      | none => (totals, none)

def scalarSamplesLoop : ScalarTotals → SegmentQueryResult → List ChunkScalarSample →
    SegmentQueryResult
  | _, result, [] => result
  | totals, result, sample :: rest =>
    match projectTypedScalarSample env startMs endMs totals sample with
    | (totals, none) => scalarSamplesLoop totals result rest
    | (totals, some pushed) => scalarSamplesLoop totals (result.push pushed) rest

def ChunkScalarProjection.metricSuffix : ChunkScalarProjection → String
  | .count => "_count"
  | .sum => "_sum"

/-- The series of a chunk's scalar lane; one without samples is left out. -/
def projectScalarChunk (projection : ChunkScalarProjection) (samples : List ChunkScalarSample) :
    List SegmentQueryResult :=
  let labels := counterLabels baseLabels projection.metricSuffix
  let result := scalarSamplesLoop env startMs endMs ⟨0, F64.zero, false⟩
    (.new (env.segmentSeriesId labels) labels) samples
  if result.samples.isEmpty then [] else [result]

end Paths

end Chronoxide
