import Chronoxide.Collections.KeyedList
import Chronoxide.Head.EncodedSeries
import Chronoxide.Head.LiveCoverage

/-! Head windows (`head/window.rs`), the push of a sample into one (`push_sample_to_window` of
`head/buffer.rs`), and the immutable fragments they are frozen into (`head/frozen.rs`). A series
table is the list of its entries. -/

namespace Chronoxide
open Codec KeyedList List

structure Sample where
  series : SeriesRef
  timestampMs : UInt64
  value : SampleValue
  deriving DecidableEq, Repr

abbrev SeriesTable (K : HeadCodecs) := List (SeriesRef × EncodedSeries K)

def SeriesTable.samples {K : HeadCodecs} (table : SeriesTable K) : List Sample :=
  table.flatMap fun e => e.2.entries.map fun sample => ⟨e.1, sample.1, sample.2⟩

structure HeadConfig where
  /-- `window_duration.as_millis()`. -/
  windowDuration : Nat
  blockSize : Nat
  floatEncoding : FloatEncoding
  intEncoding : IntEncoding
  varlenEncoding : VarLenEncodingKind
  /-- `out_of_order_time_window.as_millis()`. -/
  outOfOrderTimeWindow : Nat
  compactNumericSeries : Bool
  deriving Repr

def HeadConfig.encoding (config : HeadConfig) : SampleKind → SeriesEncoding
  | .float => .float config.floatEncoding
  | .int64 => .int config.intEncoding
  | .histogram => .histogram config.varlenEncoding
  | .exponentialHistogram => .exponentialHistogram config.varlenEncoding
  | .summary => .summary config.varlenEncoding

structure HeadWindow (K : HeadCodecs) where
  startMs : UInt64
  endMs : UInt64
  series : SeriesTable K
  datapoints : Nat
  outOfOrder : Bool
  coverageTracking : Bool
  coverage : CoverageLedger
  recordedOrderRange : Option RecordedSampleOrderRange
  recordedOrders : RecordedSampleOrderSet

inductive FrozenHeadLane
  | inOrder
  | outOfOrder
  deriving DecidableEq, Repr

def FrozenHeadLane.isOutOfOrder : FrozenHeadLane → Bool
  | inOrder => false
  | outOfOrder => true

structure FrozenSeriesRun (K : HeadCodecs) where
  series : SeriesRef
  kind : SampleKind
  encoded : EncodedSeries K

def SampleKind.rank : SampleKind → Nat
  | .float => 0
  | .int64 => 1
  | .histogram => 2
  | .exponentialHistogram => 3
  | .summary => 4

/-- The order of a frozen directory: series, then kind, then codec name. -/
def FrozenSeriesRun.le {K : HeadCodecs} (left right : FrozenSeriesRun K) : Bool :=
  left.series.get < right.series.get || (left.series.get == right.series.get &&
    (left.kind.rank < right.kind.rank ||
      (left.kind == right.kind && left.encoded.codecName ≤ right.encoded.codecName)))

structure FrozenHeadFragment (K : HeadCodecs) where
  startMs : UInt64
  endMs : UInt64
  lane : FrozenHeadLane
  datapoints : Nat
  coverageTracking : Bool
  coverage : CoverageLedger
  recordedOrderRange : Option RecordedSampleOrderRange
  recordedOrders : RecordedSampleOrderSet
  publicationSequence : Nat
  runs : List (FrozenSeriesRun K)

namespace HeadWindow

variable {K : HeadCodecs}

def newWithLaneAndCoverage (K : HeadCodecs) (startMs endMs : UInt64)
    (outOfOrder coverageTracking : Bool) : HeadWindow K where
  startMs := startMs
  endMs := endMs
  series := []
  datapoints := 0
  outOfOrder := outOfOrder
  coverageTracking := coverageTracking
  coverage := .empty
  recordedOrderRange := none
  recordedOrders := .empty

variable (w : HeadWindow K)

def samples : List Sample := w.series.samples

def entriesOf (series : SeriesRef) : List (UInt64 × SampleValue) :=
  (w.series.lookup series).elim [] EncodedSeries.entries

def seriesSampleCounts : List Nat := w.series.map fun e => e.2.sampleCount

def lane : FrozenHeadLane := if w.outOfOrder then .outOfOrder else .inOrder

def hasSamples : Bool := w.datapoints ≠ 0 || !w.series.isEmpty

def emptyTailLike : HeadWindow K :=
  newWithLaneAndCoverage K w.startMs w.endMs w.outOfOrder w.coverageTracking

def sealAllSeries : HeadWindow K :=
  { w with series := w.series.map fun e => (e.1, e.2.seal) }

/-- `Ok(false)` is a sample dropped because the series has another kind. A series that is new to the
window enters the table after its first sample is encoded. -/
def pushSample (config : HeadConfig) (w : HeadWindow K) (fault : Nat → Option IoError)
    (sample : Sample) : Mutation (HeadWindow K) Bool :=
  let arena : BlockArena := ⟨w.coverageTracking, fault⟩
  match w.series.lookup sample.series with
  | some encoded =>
    if encoded.kind ≠ sample.value.kind then (.ok false, w)
    else
      match encoded.pushSample arena w.startMs sample.timestampMs sample.value config.blockSize with
      | (.error error, encoded) =>
        (.error error, { w with series := KeyedList.set sample.series encoded w.series })
      | (.ok (), encoded) =>
        (.ok true, { w with
          series := KeyedList.set sample.series encoded w.series
          datapoints := saturatingSucc 64 w.datapoints })
  | none =>
    let encoded := EncodedSeries.new K (config.encoding sample.value.kind)
      config.compactNumericSeries config.blockSize
    match encoded.pushSample arena w.startMs sample.timestampMs sample.value config.blockSize with
    | (.error error, _) => (.error error, w)
    | (.ok (), encoded) =>
      (.ok true, { w with
        series := w.series ++ [(sample.series, encoded)]
        datapoints := saturatingSucc 64 w.datapoints })

structure PreparedWindowCoverageUpdate where
  coverage : CoverageLedger
  orderRange : RecordedSampleOrderRange
  ownershipAppend : PreparedRecordedSampleAppend

/-- The count of recorded samples, their orders and the coarse range agree with the datapoints. -/
def coverageMatchesDatapoints : Bool :=
  w.coverage.sampleCount = w.datapoints && w.recordedOrders.sampleCount = w.datapoints &&
    (w.datapoints == 0) == w.recordedOrderRange.isNone &&
    (w.datapoints == 0) == w.recordedOrders.isEmpty

def checkedCoverageUpdate (contribution : RecordedSampleContribution) (fault : Option IoError)
    : Except IoError PreparedWindowCoverageUpdate := do
  require w.coverageTracking (invalidData "tracked sample targeted an untracked head window")
  require w.coverageMatchesDatapoints
    (invalidData "head exact coverage no longer matches recorded datapoints")
  let coverage ← w.coverage.checkedWithContribution contribution
  let orderRange ← match w.recordedOrderRange with
    | some range => range.checkedExtend contribution.order
    | none => .ok (.one contribution.order)
  let ownershipAppend ← w.recordedOrders.tryPrepareAppend contribution.order fault
  return ⟨coverage, orderRange, ownershipAppend⟩

def commitCoverage (update : PreparedWindowCoverageUpdate) : HeadWindow K :=
  { w with
    recordedOrders := w.recordedOrders.commitPreparedAppend update.ownershipAppend
    coverage := update.coverage
    recordedOrderRange := some update.orderRange }

/-- The allocations of one recorded sample that fail: the run of its order, the block it fills. -/
structure SampleFaults where
  order : Option IoError
  block : Nat → Option IoError

/-- The coverage is checked before the push and committed after it. -/
def recordSample (config : HeadConfig) (w : HeadWindow K) (faults : SampleFaults)
    (contribution : Option RecordedSampleContribution) (sample : Sample) :
    Mutation (HeadWindow K) Bool :=
  match contribution with
  | none => pushSample config w faults.block sample
  | some contribution =>
    match w.checkedCoverageUpdate contribution faults.order with
    | .error error => (.error error, w)
    | .ok update =>
      match pushSample config w faults.block sample with
      | (.ok true, w) => (.ok true, w.commitCoverage update)
      | outcome => outcome

def trySealSeries (adaptive : Bool) (fault : SeriesRef → Option IoError) :
    SeriesTable K → Mutation (SeriesTable K) Unit
  | [] => (.ok (), [])
  | (series, encoded) :: rest =>
    match encoded.trySeal ⟨adaptive, fun _ => fault series⟩ with
    | (.error error, encoded) => (.error error, (series, encoded) :: rest)
    | (.ok (), encoded) =>
      let (result, rest) := trySealSeries adaptive fault rest
      (result, (series, encoded) :: rest)

def trySealAllSeries (fault : SeriesRef → Option IoError) : Mutation (HeadWindow K) Unit :=
  let (result, series) := trySealSeries w.coverageTracking fault w.series
  (result, { w with series })

def frozenSampleCount (table : SeriesTable K) : Except IoError Nat :=
  table.foldlM (fun sampleCount e => do
    e.2.validateArena
    require (sampleCount + e.2.sampleCount < 2 ^ 64)
      (invalidData "frozen head sample count overflows u64")
    return sampleCount + e.2.sampleCount) 0

def validateForFreeze : Except IoError Unit := do
  let sampleCount ← frozenSampleCount w.series
  require (sampleCount = w.datapoints) (invalidData (
    "head datapoint count " ++ toString w.datapoints ++
      " disagrees with encoded series count " ++ toString sampleCount))
  if w.coverageTracking then
    require w.coverageMatchesDatapoints
      (invalidData "tracked head coverage does not exactly match its recorded datapoints")
    w.recordedOrders.validate
    if let some range := w.recordedOrderRange then
      require (w.recordedOrders.runs.head?.map (·.first) = some range.first ∧
          w.recordedOrders.runs.getLast?.map (·.last) = some range.last)
        (invalidData "tracked head coarse order range disagrees with exact ownership")
  else
    require (w.coverage = .empty ∧ w.recordedOrderRange = none ∧ w.recordedOrders.isEmpty)
      (invalidData "untracked head window unexpectedly carries live coverage")

def toFragment : FrozenHeadFragment K where
  startMs := w.startMs
  endMs := w.endMs
  lane := w.lane
  datapoints := w.datapoints
  coverageTracking := w.coverageTracking
  coverage := w.coverage
  recordedOrderRange := w.recordedOrderRange
  recordedOrders := w.recordedOrders
  publicationSequence := 0
  runs := (w.series.map fun e => ⟨e.1, e.2.kind, e.2⟩).mergeSort FrozenSeriesRun.le

/-- The allocations of a freeze that fail: the run directory, the block of a series, the frozen
arena. -/
structure FreezeFaults where
  reserve : Option IoError
  block : SeriesRef → Option IoError
  arena : Option IoError

/-- A failure returns the window, with the series sealed so far. -/
def tryFreeze (faults : FreezeFaults) : Except (IoError × HeadWindow K) (FrozenHeadFragment K) :=
  match faults.reserve with
  | some error => .error (error, w)
  | none =>
    match w.trySealAllSeries faults.block with
    | (.error error, w) => .error (error, w)
    | (.ok (), w) =>
      match w.validateForFreeze with
      | .error error => .error (error, w)
      | .ok () =>
        match faults.arena with
        | some error => .error (error, w)
        | none => .ok w.toFragment

end HeadWindow

def FrozenHeadFragment.samples {K : HeadCodecs} (fragment : FrozenHeadFragment K) : List Sample :=
  SeriesTable.samples (fragment.runs.map fun run => (run.series, run.encoded))

structure HeadSelectorIndexKey where
  startMs : UInt64
  endMs : UInt64
  datapoints : Nat
  seriesLen : Nat
  labelResolverLen : Nat
  deriving DecidableEq, Repr

structure HeadIndexedSeries where
  seriesId : UInt64
  labels : List (String × String)
  deriving DecidableEq, Repr

structure HeadSelectorIndex where
  allSeries : List SeriesRef
  series : List (SeriesRef × HeadIndexedSeries)
  postings : List ((String × String) × List SeriesRef)
  labelValues : List (String × List String)
  deriving DecidableEq, Repr

structure CachedHeadSelectorIndex where
  key : HeadSelectorIndexKey
  index : HeadSelectorIndex
  deriving DecidableEq, Repr

def HeadSelectorIndexKey.new {K : HeadCodecs} (window : HeadWindow K) (labelResolverLen : Nat) :
    HeadSelectorIndexKey where
  startMs := window.startMs
  endMs := window.endMs
  datapoints := window.datapoints
  seriesLen := window.series.length
  labelResolverLen := labelResolverLen

variable {sample : Sample}

namespace SeriesTable

variable {K : HeadCodecs}

theorem samples_append (front back : SeriesTable K) :
    samples (front ++ back) = samples front ++ samples back :=
  flatMap_append ..

theorem samples_cons (e : SeriesRef × EncodedSeries K) (back : SeriesTable K) :
    samples (e :: back) = e.2.entries.map (fun entry => ⟨e.1, entry.1, entry.2⟩) ++ samples back :=
  flatMap_cons ..

theorem mem_samples {table : SeriesTable K} :
    sample ∈ table.samples ↔
      ∃ e ∈ table, e.1 = sample.series ∧ (sample.timestampMs, sample.value) ∈ e.2.entries := by
  unfold samples
  rw [mem_flatMap]
  constructor
  · rintro ⟨e, he, hsample⟩
    obtain ⟨entry, hentry, rfl⟩ := mem_map.mp hsample
    exact ⟨e, he, rfl, hentry⟩
  · rintro ⟨e, he, hseries, hentry⟩
    refine ⟨e, he, mem_map.mpr ⟨_, hentry, ?_⟩⟩
    rw [hseries]

/-- The same series with the same samples, some of their blocks sealed. -/
def Kept (table table' : SeriesTable K) : Prop :=
  List.Forall₂ (fun e e' => e'.1 = e.1 ∧ e.2.Kept e'.2) table table'

theorem Kept.refl (table : SeriesTable K) : Kept table table := by
  apply forall₂_same.mpr
  intro e _
  exact ⟨rfl, rfl, id, rfl⟩

variable {table table' : SeriesTable K}

theorem Kept.keys_eq (h : Kept table table') : table'.map Prod.fst = table.map Prod.fst := by
  induction h with
  | nil => rfl
  | cons he _ ih => rw [map_cons, map_cons, he.1, ih]

theorem Kept.samples_eq (h : Kept table table') : samples table' = samples table := by
  induction h with
  | nil => rfl
  | cons he _ ih => rw [samples_cons, samples_cons, he.1, he.2.1, ih]

theorem Kept.wf (h : Kept table table') (hwf : ∀ e ∈ table, e.2.WF) : ∀ e ∈ table', e.2.WF := by
  induction h with
  | nil => exact hwf
  | cons he _ ih =>
    obtain ⟨hfirst, hrest⟩ := forall_mem_cons.mp hwf
    exact forall_mem_cons.mpr ⟨he.2.2.1 hfirst, ih hrest⟩

theorem Kept.entries_eq (h : Kept table table') (series : SeriesRef) :
    (table'.lookup series).elim [] EncodedSeries.entries =
      (table.lookup series).elim [] EncodedSeries.entries := by
  induction h with
  | nil => rfl
  | cons he _ ih =>
    rw [lookup_cons_ite, lookup_cons_ite, he.1]
    split
    · exact he.2.1
    · exact ih

theorem Kept.set {series : SeriesRef} {encoded encoded' : EncodedSeries K}
    (hlookup : table.lookup series = some encoded) (h : encoded.Kept encoded') :
    Kept table (set series encoded' table) := by
  obtain ⟨front, back, htable, -, hset⟩ := exists_split hlookup
  rw [hset, htable]
  exact rel_append (Kept.refl front) (.cons ⟨rfl, h⟩ (Kept.refl back))

theorem sum_sampleCounts (hwf : ∀ e ∈ table, e.2.WF) :
    min (table.map fun e => e.2.sampleCount).sum (counterMax 64) =
      min (samples table).length (counterMax 64) := by
  induction table with
  | nil => rfl
  | cons e table ih =>
    have hcount := EncodedSeries.sampleCount_eq (hwf e (mem_cons_self ..))
    have hrest := ih fun e' he' => hwf e' (mem_cons_of_mem _ he')
    rw [samples_cons, map_cons, sum_cons, length_append, length_map, hcount]
    omega

end SeriesTable

namespace HeadWindow

variable {K : HeadCodecs}

/-- Every series is stored once, and the counters count. -/
structure WF (w : HeadWindow K) : Prop where
  series_wf : ∀ e ∈ w.series, e.2.WF
  nodup : (w.series.map Prod.fst).Nodup
  datapoints_eq : w.datapoints = min w.samples.length (counterMax 64)

structure SameSlot (w w' : HeadWindow K) : Prop where
  start_eq : w'.startMs = w.startMs
  end_eq : w'.endMs = w.endMs
  lane_eq : w'.outOfOrder = w.outOfOrder

structure Kept (w w' : HeadWindow K) : Prop extends SameSlot w w' where
  series_kept : w.series.Kept w'.series
  datapoints_kept : w'.datapoints = w.datapoints

variable {w w' : HeadWindow K}

theorem Kept.refl (w : HeadWindow K) : w.Kept w := ⟨⟨rfl, rfl, rfl⟩, .refl _, rfl⟩

theorem Kept.samples_eq (h : w.Kept w') : w'.samples = w.samples := h.series_kept.samples_eq

theorem Kept.entriesOf_eq (h : w.Kept w') (series : SeriesRef) :
    w'.entriesOf series = w.entriesOf series :=
  h.series_kept.entries_eq series

theorem Kept.wf (h : w.Kept w') (hwf : w.WF) : w'.WF where
  series_wf := h.series_kept.wf hwf.series_wf
  nodup := by
    rw [h.series_kept.keys_eq]
    exact hwf.nodup
  datapoints_eq := by
    rw [h.datapoints_kept, h.samples_eq]
    exact hwf.datapoints_eq

theorem WF.datapoints_eq_sum (hwf : w.WF) :
    w.datapoints = min w.seriesSampleCounts.sum (counterMax 64) := by
  rw [hwf.datapoints_eq]
  exact (SeriesTable.sum_sampleCounts hwf.series_wf).symm

theorem new_wf (startMs endMs : UInt64) (outOfOrder tracking : Bool) :
    (newWithLaneAndCoverage K startMs endMs outOfOrder tracking).WF :=
  ⟨by simp [newWithLaneAndCoverage], by simp [newWithLaneAndCoverage], rfl⟩

theorem mem_entriesOf (hwf : w.WF) :
    sample ∈ w.samples ↔ (sample.timestampMs, sample.value) ∈ w.entriesOf sample.series := by
  unfold HeadWindow.samples entriesOf
  rw [SeriesTable.mem_samples]
  have hlookup : ∀ e ∈ w.series, w.series.lookup e.1 = some e.2 :=
    fun e he => lookup_of_mem hwf.nodup he
  constructor
  · rintro ⟨e, he, hseries, hentry⟩
    rw [← hseries, hlookup e he]
    exact hentry
  intro hentry
  cases hfound : w.series.lookup sample.series with
  | none => simp [hfound] at hentry
  | some encoded =>
    rw [hfound] at hentry
    obtain ⟨front, back, htable, -, -⟩ := exists_split hfound
    refine ⟨(sample.series, encoded), ?_, rfl, hentry⟩
    rw [htable]
    simp

theorem sealAllSeries_kept (w : HeadWindow K) : w.Kept w.sealAllSeries where
  start_eq := rfl
  end_eq := rfl
  lane_eq := rfl
  datapoints_kept := rfl
  series_kept := by
    apply forall₂_map_right_iff.mpr
    apply forall₂_same.mpr
    intro e _
    exact ⟨rfl, e.2.seal_kept⟩

theorem trySealSeries_kept (adaptive : Bool) (fault : SeriesRef → Option IoError)
    (table : SeriesTable K) : table.Kept (trySealSeries adaptive fault table).2 := by
  induction table with
  | nil => exact .nil
  | cons e rest ih =>
    have hkept := e.2.trySeal_kept ⟨adaptive, fun _ => fault e.1⟩
    unfold trySealSeries
    split
    · rename_i hseal
      rw [hseal] at hkept
      exact .cons ⟨rfl, hkept⟩ (SeriesTable.Kept.refl rest)
    · rename_i hseal
      rw [hseal] at hkept
      exact .cons ⟨rfl, hkept⟩ ih

theorem trySealAllSeries_kept (w : HeadWindow K) (fault : SeriesRef → Option IoError) :
    w.Kept (w.trySealAllSeries fault).2 where
  start_eq := rfl
  end_eq := rfl
  lane_eq := rfl
  datapoints_kept := rfl
  series_kept := trySealSeries_kept _ _ _

structure Took (w w' : HeadWindow K) (sample : Sample) : Prop extends SameSlot w w' where
  wf : w'.WF
  samples_perm : w'.samples.Perm (sample :: w.samples)
  entriesOf_eq : ∀ series, w'.entriesOf series =
    if series = sample.series then w.entriesOf series ++ [(sample.timestampMs, sample.value)]
    else w.entriesOf series

def PushedTo (w : HeadWindow K) (sample : Sample) : Mutation (HeadWindow K) Bool → Prop
  | (.ok true, w') => w.Took w' sample
  | (.ok false, w') => w' = w
  | (.error _, w') => w.Kept w'

theorem datapoints_succ (hwf : w.WF) {table : SeriesTable K}
    (hperm : table.samples.Perm (sample :: w.samples)) :
    saturatingSucc 64 w.datapoints = min table.samples.length (counterMax 64) := by
  rw [hwf.datapoints_eq, saturatingSucc_min, hperm.length_eq, length_cons]

theorem took_existing (hwf : w.WF) {encoded encoded' : EncodedSeries K}
    (hlookup : w.series.lookup sample.series = some encoded)
    (hentries : encoded'.entries = encoded.entries ++ [(sample.timestampMs, sample.value)])
    (hencoded : encoded'.WF) :
    w.Took { w with
      series := set sample.series encoded' w.series
      datapoints := saturatingSucc 64 w.datapoints } sample := by
  obtain ⟨front, back, htable, -, hset⟩ := exists_split hlookup
  have hperm : (SeriesTable.samples (set sample.series encoded' w.series)).Perm
      (sample :: w.samples) := by
    rw [hset, HeadWindow.samples, htable, SeriesTable.samples_append, SeriesTable.samples_append,
      SeriesTable.samples_cons, SeriesTable.samples_cons, hentries, map_append, append_assoc]
    refine ((perm_middle).append_left _).trans ?_
    exact perm_middle
  refine ⟨⟨rfl, rfl, rfl⟩, ⟨?_, ?_, datapoints_succ hwf hperm⟩, hperm, ?_⟩
  · have hall := hwf.series_wf
    rw [htable, forall_mem_append, forall_mem_cons] at hall
    rw [hset, forall_mem_append, forall_mem_cons]
    exact ⟨hall.1, hencoded, hall.2.2⟩
  · have hnodup := hwf.nodup
    rw [htable] at hnodup
    rw [hset]
    simpa using hnodup
  intro series
  unfold entriesOf
  rw [lookup_set (by rw [hlookup]; rfl)]
  split
  · rename_i hseries
    rw [hseries, hlookup]
    exact hentries
  · rfl

theorem took_new (hwf : w.WF) {encoded : EncodedSeries K}
    (hlookup : w.series.lookup sample.series = none)
    (hentries : encoded.entries = [(sample.timestampMs, sample.value)]) (hencoded : encoded.WF) :
    w.Took { w with
      series := w.series ++ [(sample.series, encoded)]
      datapoints := saturatingSucc 64 w.datapoints } sample := by
  have hsamples : SeriesTable.samples (w.series ++ [(sample.series, encoded)]) =
      w.samples ++ [sample] := by
    rw [SeriesTable.samples_append, SeriesTable.samples_cons, hentries]
    rfl
  have hperm : (SeriesTable.samples (w.series ++ [(sample.series, encoded)])).Perm
      (sample :: w.samples) := by
    rw [hsamples]
    exact perm_append_singleton ..
  refine ⟨⟨rfl, rfl, rfl⟩, ⟨?_, ?_, datapoints_succ hwf hperm⟩, hperm, ?_⟩
  · exact forall_mem_append.mpr ⟨hwf.series_wf, forall_mem_singleton.mpr hencoded⟩
  · rw [map_append]
    refine nodup_append.mpr ⟨hwf.nodup, pairwise_singleton .., ?_⟩
    intro series hmem last hlast heq
    rw [map_singleton, mem_singleton] at hlast
    obtain ⟨e, he, rfl⟩ := mem_map.mp hmem
    have hfound := lookup_of_mem hwf.nodup he
    rw [heq, hlast, hlookup] at hfound
    cases hfound
  intro series
  unfold entriesOf
  rw [lookup_append_singleton hlookup]
  split
  · rename_i hseries
    rw [hseries, hlookup]
    exact hentries
  · rfl

theorem pushSample_pushedTo {config : HeadConfig} (hsize : config.blockSize ≤ counterMax 32)
    (hwf : w.WF) (fault : Nat → Option IoError) (sample : Sample) :
    w.PushedTo sample (pushSample config w fault sample) := by
  unfold pushSample
  dsimp only
  split
  · rename_i encoded hlookup
    split
    · exact rfl
    obtain ⟨front, back, htable, -, -⟩ := exists_split hlookup
    have hencoded : encoded.WF := hwf.series_wf (sample.series, encoded) (by rw [htable]; simp)
    have hpushed := EncodedSeries.pushSample_pushed hencoded ⟨w.coverageTracking, fault⟩ w.startMs
      sample.timestampMs sample.value hsize
    split
    · rename_i hresult
      rw [hresult] at hpushed
      obtain ⟨hsame, hwf', hkind⟩ := hpushed
      exact ⟨⟨rfl, rfl, rfl⟩, .set hlookup ⟨hsame, fun _ => hwf', hkind⟩, rfl⟩
    · rename_i hresult
      rw [hresult] at hpushed
      exact took_existing hwf hlookup hpushed.1 hpushed.2.1
  rename_i hlookup
  obtain ⟨hempty, hnew, -⟩ := EncodedSeries.new_spec (K := K)
    (config.encoding sample.value.kind) config.compactNumericSeries config.blockSize
  have hpushed := EncodedSeries.pushSample_pushed hnew ⟨w.coverageTracking, fault⟩ w.startMs
    sample.timestampMs sample.value hsize
  split
  · exact .refl w
  rename_i hresult
  rw [hresult] at hpushed
  refine took_new hwf hlookup ?_ hpushed.2.1
  have hentries := hpushed.1
  rw [hempty] at hentries
  exact hentries

theorem Took.commitCoverage (h : w.Took w' sample)
    (update : PreparedWindowCoverageUpdate) : w.Took (w'.commitCoverage update) sample :=
  ⟨⟨h.start_eq, h.end_eq, h.lane_eq⟩, ⟨h.wf.series_wf, h.wf.nodup, h.wf.datapoints_eq⟩,
    h.samples_perm, h.entriesOf_eq⟩

theorem recordSample_pushedTo {config : HeadConfig} (hsize : config.blockSize ≤ counterMax 32)
    (hwf : w.WF) (faults : SampleFaults) (contribution : Option RecordedSampleContribution)
    (sample : Sample) : w.PushedTo sample (recordSample config w faults contribution sample) := by
  have hpushed := pushSample_pushedTo hsize hwf faults.block sample
  unfold recordSample
  split
  · exact hpushed
  split
  · exact .refl w
  rename_i update _
  split
  · rename_i hresult
    rw [hresult] at hpushed
    exact Took.commitCoverage hpushed update
  · exact hpushed

theorem toFragment_runs_perm (w : HeadWindow K) :
    (w.toFragment.runs.map fun run => (run.series, run.encoded)).Perm w.series := by
  have hruns := (mergeSort_perm
    (w.series.map fun e => (⟨e.1, e.2.kind, e.2⟩ : FrozenSeriesRun K)) FrozenSeriesRun.le).map
      fun run => (run.series, run.encoded)
  rwa [map_map, show (fun run : FrozenSeriesRun K => (run.series, run.encoded)) ∘
    (fun e : SeriesRef × EncodedSeries K => ⟨e.1, e.2.kind, e.2⟩) = id from rfl, map_id]
    at hruns

theorem toFragment_samples (w : HeadWindow K) : w.toFragment.samples.Perm w.samples :=
  w.toFragment_runs_perm.flatMap_right _

end HeadWindow

end Chronoxide
