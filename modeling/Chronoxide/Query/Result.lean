import Chronoxide.Collections.Sidecar
import Chronoxide.Head.Block
import Chronoxide.Query.Matcher

/-! The samples a query found of one series (`segment/query_types/result.rs`). Four columns stand
beside the samples and are filled in only when some sample needs them; a sample projected from a
delta interval keeps the interval, so that running totals can be computed again after a merge. -/

namespace Chronoxide
open KeepLast

def prometheusStaleNanBits : UInt64 := 0x7ff0000000000002

def prometheusStaleNan : F64 := ⟨prometheusStaleNanBits⟩

def F64.isStaleMarker (x : F64) : Bool := x.bits = prometheusStaleNan.bits

/-- The two operations on doubles that a running total uses: `+` and `as f64`. -/
structure FloatOps where
  add : F64 → F64 → F64
  ofU64 : UInt64 → F64

inductive QueryResultTemporality
  | unknown
  | cumulative
  | delta
  | mixed
  deriving DecidableEq, Repr

def QueryResultTemporality.ofOtlp : OtlpAggregationTemporality → QueryResultTemporality
  | .delta => .delta
  | .cumulative => .cumulative
  | .unspecified => .unknown

def mergeResultTemporality (left : QueryResultTemporality) (leftSamples : Nat)
    (right : QueryResultTemporality) (rightSamples : Nat) : QueryResultTemporality :=
  if leftSamples = 0 then right
  else if rightSamples = 0 || left = right then left
  else if left = .unknown || right = .unknown then .unknown
  else .mixed

/-- The loop of `recompute_temporality_from_samples`: what was merged, of how many samples. -/
def observeTemporality (state : QueryResultTemporality × Nat)
    (temporality : QueryResultTemporality) : QueryResultTemporality × Nat :=
  (mergeResultTemporality state.1 state.2 temporality 1, state.2 + 1)

def mergeTemporalities (temporalities : List QueryResultTemporality) : QueryResultTemporality :=
  (temporalities.foldl observeTemporality (.unknown, 0)).1

inductive DeltaProjectionInterval
  | count (raw : UInt64) (resetHint : CounterResetHint)
  | sum (raw : F64) (resetHint : CounterResetHint)
  deriving DecidableEq, Repr

inductive DeltaProjectionKind
  | count
  | sum
  deriving DecidableEq, Repr

namespace DeltaProjectionInterval

def kind : DeltaProjectionInterval → DeltaProjectionKind
  | .count _ _ => .count
  | .sum _ _ => .sum

def resetHint : DeltaProjectionInterval → CounterResetHint
  | .count _ hint => hint
  | .sum _ hint => hint

def storedReset (interval : DeltaProjectionInterval) : Bool :=
  interval.resetHint = .counterReset || interval.resetHint = .gaugeType

end DeltaProjectionInterval

@[ext]
structure SegmentQueryResult where
  seriesId : UInt64
  labels : LabelRow
  samples : List (UInt64 × F64)
  counterResetHints : List CounterResetHint
  sampleStartTimes : List (Option UInt64)
  sampleTemporalities : List QueryResultTemporality
  temporality : QueryResultTemporality
  labelsComplete : Bool
  metricNameDroppedSeriesId : Option UInt64
  deltaProjectionIntervals : List (Option DeltaProjectionInterval)
  deriving DecidableEq, Repr

/-- A sample as it is pushed: plain, or with a reset hint, a temporality and a start time. -/
structure PushedSample where
  timestampMs : UInt64
  value : F64
  typed : Option (CounterResetHint × OtlpAggregationTemporality × Option UInt64)
  deltaInterval : Option DeltaProjectionInterval
  deriving DecidableEq, Repr

@[ext]
structure ResultColumns where
  hints : Bool
  startTimes : Bool
  temporalities : Bool
  deltaIntervals : Bool
  deriving DecidableEq, Repr

structure ResultRow where
  sample : UInt64 × F64
  hint : CounterResetHint
  startTime : Option UInt64
  temporality : QueryResultTemporality
  deltaInterval : Option DeltaProjectionInterval
  deriving DecidableEq, Repr

structure DeltaReplay where
  countAccumulator : UInt64
  sumAccumulator : F64
  activeKind : Option DeltaProjectionKind
  fragmentStarted : Bool
  previousDeltaTimestampMs : Option UInt64
  deriving DecidableEq, Repr

namespace DeltaReplay

def start : DeltaReplay := ⟨0, F64.zero, none, false, none⟩

/-- A kind change, a stored reset, and a gap or an overlap between neighbours end the running
total. -/
def restarts (s : DeltaReplay) (startTime : Option UInt64)
    (interval : DeltaProjectionInterval) : Bool :=
  let startTimeContinues :=
    s.previousDeltaTimestampMs.isSome && startTime = s.previousDeltaTimestampMs
  s.activeKind ≠ some interval.kind || interval.storedReset ||
    s.fragmentStarted && !startTimeContinues

def restart (s : DeltaReplay) : DeltaReplay :=
  { s with countAccumulator := 0, sumAccumulator := F64.zero, fragmentStarted := false }

def accumulate (ops : FloatOps) (s : DeltaReplay) : DeltaProjectionInterval → DeltaReplay × F64
  | .count raw _ =>
    let total := saturatingAdd s.countAccumulator raw
    ({ s with countAccumulator := total }, ops.ofU64 total)
  | .sum raw _ =>
    let total := ops.add s.sumAccumulator raw
    ({ s with sumAccumulator := total }, total)

/-- One interval: the new value of its sample and the sample's reset hint. -/
def interval (ops : FloatOps) (s : DeltaReplay) (timestampMs : UInt64) (startTime : Option UInt64)
    (interval : DeltaProjectionInterval) : DeltaReplay × F64 × CounterResetHint :=
  let s := if s.restarts startTime interval then s.restart else s
  let (next, value) := s.accumulate ops interval
  ({ next with
      activeKind := some interval.kind
      fragmentStarted := true
      previousDeltaTimestampMs := some timestampMs },
    value, if s.fragmentStarted then .notCounterReset else .counterReset)

/-- One row. A stale sample, and one that is no projection, close the fragment. -/
def row (ops : FloatOps) (s : DeltaReplay) (row : ResultRow) : DeltaReplay × ResultRow :=
  if row.sample.2.isStaleMarker then (start, row)
  else match row.deltaInterval with
    | none => (start, row)
    | some delta =>
      let (next, value, hint) := s.interval ops row.sample.1 row.startTime delta
      (next, { row with sample := (row.sample.1, value), hint })

def rows (ops : FloatOps) (s : DeltaReplay) : List ResultRow → List ResultRow
  | [] => []
  | r :: rest => (s.row ops r).2 :: rows ops (s.row ops r).1 rest

end DeltaReplay

inductive SampleTimestampOrder
  | strictlyIncreasing
  | sortedWithDuplicates
  | unsorted
  deriving DecidableEq, Repr

def hasDuplicateOrUnsorted (hasDuplicate : Bool) : List (UInt64 × F64) → Option Bool
  | previous :: current :: rest =>
    if previous.1 > current.1 then none
    else hasDuplicateOrUnsorted (hasDuplicate || previous.1 = current.1) (current :: rest)
  | _ => some hasDuplicate

def sampleTimestampOrder (samples : List (UInt64 × F64)) : SampleTimestampOrder :=
  match hasDuplicateOrUnsorted false samples with
  | some false => .strictlyIncreasing
  | some true => .sortedWithDuplicates
  | none => .unsorted

def sampleKey (sample : UInt64 × F64) : Nat := sample.1.toNat

namespace SegmentQueryResult

def new (seriesId : UInt64) (labels : LabelRow) : SegmentQueryResult where
  seriesId := seriesId
  labels := labels
  samples := []
  counterResetHints := []
  sampleStartTimes := []
  sampleTemporalities := []
  temporality := .unknown
  labelsComplete := true
  metricNameDroppedSeriesId := none
  deltaProjectionIntervals := []

variable (r : SegmentQueryResult)

def columns : ResultColumns where
  hints := Sidecar.has r.samples.length r.counterResetHints
  startTimes := Sidecar.has r.samples.length r.sampleStartTimes
  temporalities := Sidecar.has r.samples.length r.sampleTemporalities
  deltaIntervals := Sidecar.has r.samples.length r.deltaProjectionIntervals

/-- The samples with the columns' entries; a column that is absent reads as its filler. -/
def rows : List ResultRow :=
  r.samples.zipIdx.map fun (sample, idx) =>
    { sample
      hint := r.counterResetHints.getD idx .unknown
      startTime := r.sampleStartTimes.getD idx none
      temporality := r.sampleTemporalities.getD idx .unknown
      deltaInterval := r.deltaProjectionIntervals.getD idx none }

def pushSample (timestampMs : UInt64) (value : F64) (r : SegmentQueryResult) :
    SegmentQueryResult :=
  let n := r.samples.length
  { r with
    samples := r.samples ++ [(timestampMs, value)]
    counterResetHints := Sidecar.pushIfPresent .unknown n r.counterResetHints
    sampleStartTimes := Sidecar.pushIfPresent none n r.sampleStartTimes
    sampleTemporalities := Sidecar.pushIfPresent .unknown n r.sampleTemporalities
    temporality :=
      if Sidecar.has n r.sampleTemporalities then mergeResultTemporality r.temporality n .unknown 1
      else r.temporality
    deltaProjectionIntervals := Sidecar.pushIfPresent none n r.deltaProjectionIntervals }

def pushSampleWithCounterResetHintTemporalityAndStartTime (timestampMs : UInt64) (value : F64)
    (resetHint : CounterResetHint) (temporality : OtlpAggregationTemporality)
    (startTimeMs : Option UInt64) (r : SegmentQueryResult) : SegmentQueryResult :=
  let n := r.samples.length
  let startTimeMs := if temporality = .delta then startTimeMs else none
  let resultTemporality := QueryResultTemporality.ofOtlp temporality
  { r with
    samples := r.samples ++ [(timestampMs, value)]
    counterResetHints := Sidecar.ensure .unknown n r.counterResetHints ++ [resetHint]
    sampleStartTimes :=
      if startTimeMs.isSome then Sidecar.ensure none n r.sampleStartTimes ++ [startTimeMs]
      else Sidecar.pushIfPresent startTimeMs n r.sampleStartTimes
    sampleTemporalities :=
      Sidecar.ensure r.temporality n r.sampleTemporalities ++ [resultTemporality]
    temporality := mergeResultTemporality r.temporality n resultTemporality 1
    deltaProjectionIntervals := Sidecar.pushIfPresent none n r.deltaProjectionIntervals }

/-- Called right after a push, so that there is a last sample. -/
def markLastDeltaProjectionInterval (interval : DeltaProjectionInterval)
    (r : SegmentQueryResult) : SegmentQueryResult :=
  { r with
    deltaProjectionIntervals :=
      (Sidecar.ensure none r.samples.length r.deltaProjectionIntervals).modifyLast
        fun _ => some interval }

def push (s : PushedSample) (r : SegmentQueryResult) : SegmentQueryResult :=
  let r := match s.typed with
    | none => r.pushSample s.timestampMs s.value
    | some (hint, temporality, startTimeMs) =>
      r.pushSampleWithCounterResetHintTemporalityAndStartTime s.timestampMs s.value hint
        temporality startTimeMs
  match s.deltaInterval with
  | none => r
  | some interval => r.markLastDeltaProjectionInterval interval

def pushAll (samples : List PushedSample) (r : SegmentQueryResult) : SegmentQueryResult :=
  samples.foldl (fun r s => r.push s) r

def extendFrom (r other : SegmentQueryResult) : SegmentQueryResult :=
  let n := r.samples.length
  let m := other.samples.length
  { r with
    metricNameDroppedSeriesId :=
      r.metricNameDroppedSeriesId.or other.metricNameDroppedSeriesId
    labelsComplete := r.labelsComplete && other.labelsComplete
    counterResetHints :=
      Sidecar.extend .unknown .unknown n m r.counterResetHints other.counterResetHints
    sampleStartTimes := Sidecar.extend none none n m r.sampleStartTimes other.sampleStartTimes
    sampleTemporalities :=
      Sidecar.extend r.temporality other.temporality n m r.sampleTemporalities
        other.sampleTemporalities
    deltaProjectionIntervals :=
      Sidecar.extend none none n m r.deltaProjectionIntervals other.deltaProjectionIntervals
    samples := r.samples ++ other.samples
    temporality := mergeResultTemporality r.temporality n other.temporality m }

/-- Applies one list operation to the samples and to every column that is there. -/
def onColumns (has : ResultColumns) (f : ∀ {α : Type}, List α → List α) (r : SegmentQueryResult) :
    SegmentQueryResult :=
  { r with
    samples := f r.samples
    counterResetHints := if has.hints then f r.counterResetHints else r.counterResetHints
    sampleStartTimes := if has.startTimes then f r.sampleStartTimes else r.sampleStartTimes
    sampleTemporalities :=
      if has.temporalities then f r.sampleTemporalities else r.sampleTemporalities
    deltaProjectionIntervals :=
      if has.deltaIntervals then f r.deltaProjectionIntervals else r.deltaProjectionIntervals }

def clearAbsent (has : ResultColumns) (r : SegmentQueryResult) : SegmentQueryResult :=
  { r with
    counterResetHints := if has.hints then r.counterResetHints else []
    sampleStartTimes := if has.startTimes then r.sampleStartTimes else []
    sampleTemporalities := if has.temporalities then r.sampleTemporalities else []
    deltaProjectionIntervals := if has.deltaIntervals then r.deltaProjectionIntervals else [] }

/-- `compact_sorted_samples_keep_last` from the cursors on. -/
def compactFrom (has : ResultColumns) (r : SegmentQueryResult) (writeIdx readIdx : Nat) :
    SegmentQueryResult :=
  match h : r.samples[readIdx]? with
  | none => (r.onColumns has (List.take writeIdx)).clearAbsent has
  | some sample =>
    let lastIdx := runEnd sampleKey r.samples readIdx (sampleKey sample)
    compactFrom has (r.onColumns has fun column => moveTo column lastIdx writeIdx) (writeIdx + 1)
      (lastIdx + 1)
termination_by r.samples.length - readIdx
decreasing_by
  have hread := (List.getElem?_eq_some_iff.mp h).1
  have hlast : readIdx ≤ runEnd sampleKey r.samples readIdx (sampleKey sample) :=
    Nat.le_add_right ..
  rw [onColumns, moveTo_length]
  omega

def compactSortedSamplesKeepLast (has : ResultColumns) (r : SegmentQueryResult) :
    SegmentQueryResult :=
  compactFrom has r 0 0

def lastTimestamp? : Option UInt64 := r.samples.getLast?.map (·.1)

def pushRow (has : ResultColumns) (r : SegmentQueryResult) (row : ResultRow) :
    SegmentQueryResult :=
  { r with
    samples := r.samples ++ [row.sample]
    counterResetHints :=
      if has.hints then r.counterResetHints ++ [row.hint] else r.counterResetHints
    sampleStartTimes :=
      if has.startTimes then r.sampleStartTimes ++ [row.startTime] else r.sampleStartTimes
    sampleTemporalities :=
      if has.temporalities then r.sampleTemporalities ++ [row.temporality]
      else r.sampleTemporalities
    deltaProjectionIntervals :=
      if has.deltaIntervals then r.deltaProjectionIntervals ++ [row.deltaInterval]
      else r.deltaProjectionIntervals }

def putRow (has : ResultColumns) (r : SegmentQueryResult) (row : ResultRow) :
    SegmentQueryResult :=
  if r.lastTimestamp? = some row.sample.1 then (r.onColumns has List.dropLast).pushRow has row
  else r.pushRow has row

def sortAndDedupeSamplesKeepLast (has : ResultColumns) (r : SegmentQueryResult) :
    SegmentQueryResult :=
  if !has.hints && !has.startTimes && !has.temporalities && !has.deltaIntervals then
    compactSortedSamplesKeepLast has
      { r with samples := r.samples.mergeSort fun a b => sampleKey a ≤ sampleKey b }
  else
    (r.rows.mergeSort fun a b => sampleKey a.sample ≤ sampleKey b.sample).foldl (putRow has)
      (r.onColumns has fun _ => [])

def recomputeTemporalityFromSamples : SegmentQueryResult :=
  { r with temporality := mergeTemporalities r.sampleTemporalities }

def materializeDeltaProjectionIntervals (ops : FloatOps) (r : SegmentQueryResult) :
    SegmentQueryResult :=
  if r.columns.deltaIntervals then
    let r :=
      { r with
        counterResetHints := Sidecar.ensure .unknown r.samples.length r.counterResetHints }
    let replayed := DeltaReplay.start.rows ops r.rows
    { r with samples := replayed.map (·.sample), counterResetHints := replayed.map (·.hint) }
  else r

def dropEqualTimestamps (has : ResultColumns) (r : SegmentQueryResult) : SegmentQueryResult :=
  if 2 ≤ r.samples.length then
    match sampleTimestampOrder r.samples with
    | .strictlyIncreasing => r
    | .sortedWithDuplicates => r.compactSortedSamplesKeepLast has
    | .unsorted => r.sortAndDedupeSamplesKeepLast has
  else r

def dedupeSamplesKeepLast (ops : FloatOps) (r : SegmentQueryResult) : SegmentQueryResult :=
  let has := r.columns
  let r := (r.clearAbsent has).dropEqualTimestamps has
  let r := if has.temporalities then r.recomputeTemporalityFromSamples else r
  r.materializeDeltaProjectionIntervals ops

end SegmentQueryResult

end Chronoxide
