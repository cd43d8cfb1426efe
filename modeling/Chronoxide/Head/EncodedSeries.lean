import Chronoxide.Head.Series

/-! A series of any sample kind under any of the configured encodings (`EncodedSeries` of
`head/encoded.rs`). The value codecs are a parameter, one for each encoding a head can be
configured with. -/

namespace Chronoxide

inductive FloatEncoding
  | raw
  | gorilla
  | elf
  | alp
  | alpRd
  | alpSpiral
  | alpRdSpiral
  | chimp128DuckDB
  | chimp128Baseline
  deriving DecidableEq, Repr

inductive IntEncoding
  | raw
  | deltaZigZag
  deriving DecidableEq, Repr

inductive VarLenEncodingKind
  | raw
  | schema
  deriving DecidableEq, Repr

inductive SeriesEncoding
  | float (encoding : FloatEncoding)
  | int (encoding : IntEncoding)
  | histogram (encoding : VarLenEncodingKind)
  | exponentialHistogram (encoding : VarLenEncodingKind)
  | summary (encoding : VarLenEncodingKind)

def SeriesEncoding.kind : SeriesEncoding → SampleKind
  | .float _ => .float
  | .int _ => .int64
  | .histogram _ => .histogram
  | .exponentialHistogram _ => .exponentialHistogram
  | .summary _ => .summary

structure HeadCodecs where
  float : FloatEncoding → BlockCodec F64
  int : IntEncoding → BlockCodec Int64
  histogram : VarLenEncodingKind → BlockCodec HistogramValue
  exponentialHistogram : VarLenEncodingKind → BlockCodec ExponentialHistogramValue
  summary : VarLenEncodingKind → BlockCodec SummaryValue

def inlineNumericSeriesCapacity : Nat := 4

/-- The arrays of the source with their length: the occupied slots. -/
structure InlineNumericSeries where
  slots : List (UInt64 × UInt64)
  blockSize : Nat
  fits : slots.length ≤ inlineNumericSeriesCapacity

namespace InlineNumericSeries

def new (blockSize : Nat) : InlineNumericSeries := ⟨[], blockSize, Nat.zero_le _⟩

variable (s : InlineNumericSeries)

def isFull : Bool := s.slots.length = inlineNumericSeriesCapacity

def push (timestampMs valueBits : UInt64) : Bool × InlineNumericSeries :=
  if h : inlineNumericSeriesCapacity ≤ s.slots.length then (false, s)
  else (true, ⟨s.slots ++ [(timestampMs, valueBits)], s.blockSize, by simp; omega⟩)

def samples {V : Type} (decode : UInt64 → V) : List (UInt64 × V) :=
  s.slots.map fun slot => (slot.1, decode slot.2)

theorem push_slots {s : InlineNumericSeries} (h : s.isFull = false) (timestampMs bits : UInt64) :
    (s.push timestampMs bits).2.slots = s.slots ++ [(timestampMs, bits)] := by
  have hne : s.slots.length ≠ inlineNumericSeriesCapacity := by simpa [isFull] using h
  have hroom : ¬ inlineNumericSeriesCapacity ≤ s.slots.length := by
    have := s.fits
    omega
  rw [push, dif_neg hroom]

end InlineNumericSeries

inductive EncodedSeries (K : HeadCodecs)
  | inlineFloatGorilla (short : InlineNumericSeries)
  | inlineIntDelta (short : InlineNumericSeries)
  | float (encoding : FloatEncoding) (series : Series (K.float encoding))
  | int (encoding : IntEncoding) (series : Series (K.int encoding))
  | histogram (encoding : VarLenEncodingKind) (series : Series (K.histogram encoding))
  | exponentialHistogram (encoding : VarLenEncodingKind)
      (series : Series (K.exponentialHistogram encoding))
  | summary (encoding : VarLenEncodingKind) (series : Series (K.summary encoding))

namespace EncodedSeries

variable {K : HeadCodecs}

def new (K : HeadCodecs) (encoding : SeriesEncoding) (compactNumericSeries : Bool)
    (blockSize : Nat) : EncodedSeries K :=
  match encoding with
  | .float .gorilla =>
    if compactNumericSeries then .inlineFloatGorilla (.new blockSize)
    else .float .gorilla (.new _)
  | .int .deltaZigZag =>
    if compactNumericSeries then .inlineIntDelta (.new blockSize)
    else .int .deltaZigZag (.new _)
  | .float encoding => .float encoding (.new _)
  | .int encoding => .int encoding (.new _)
  | .histogram encoding => .histogram encoding (.new _)
  | .exponentialHistogram encoding => .exponentialHistogram encoding (.new _)
  | .summary encoding => .summary encoding (.new _)

def kind : EncodedSeries K → SampleKind
  | inlineFloatGorilla _ | float .. => .float
  | inlineIntDelta _ | int .. => .int64
  | histogram .. => .histogram
  | exponentialHistogram .. => .exponentialHistogram
  | summary .. => .summary

def codecName : EncodedSeries K → String
  | inlineFloatGorilla _ => (K.float .gorilla).name
  | inlineIntDelta _ => (K.int .deltaZigZag).name
  | float encoding _ => (K.float encoding).name
  | int encoding _ => (K.int encoding).name
  | histogram encoding _ => (K.histogram encoding).name
  | exponentialHistogram encoding _ => (K.exponentialHistogram encoding).name
  | summary encoding _ => (K.summary encoding).name

def sampleCount : EncodedSeries K → Nat
  | inlineFloatGorilla short | inlineIntDelta short => short.slots.length
  | float _ series => series.samples
  | int _ series => series.samples
  | histogram _ series => series.samples
  | exponentialHistogram _ series => series.samples
  | summary _ series => series.samples

def tagged {V : Type} (tag : V → SampleValue) (entries : List (UInt64 × V)) :
    List (UInt64 × SampleValue) :=
  entries.map fun e => (e.1, tag e.2)

def entries : EncodedSeries K → List (UInt64 × SampleValue)
  | inlineFloatGorilla short => tagged .float (short.samples F64.mk)
  | inlineIntDelta short => tagged .int64 (short.samples UInt64.toInt64)
  | float _ series => tagged .float series.entries
  | int _ series => tagged .int64 series.entries
  | histogram _ series => tagged .histogram series.entries
  | exponentialHistogram _ series => tagged .exponentialHistogram series.entries
  | summary _ series => tagged .summary series.entries

def «seal» : EncodedSeries K → EncodedSeries K
  | inlineFloatGorilla short => inlineFloatGorilla short
  | inlineIntDelta short => inlineIntDelta short
  | float encoding series => float encoding series.sealCurrent
  | int encoding series => int encoding series.sealCurrent
  | histogram encoding series => histogram encoding series.sealCurrent
  | exponentialHistogram encoding series => exponentialHistogram encoding series.sealCurrent
  | summary encoding series => summary encoding series.sealCurrent

def onSeries {V : Type} {C : BlockCodec V} (wrap : Series C → EncodedSeries K)
    (outcome : Mutation (Series C) Unit) : Mutation (EncodedSeries K) Unit :=
  (outcome.1, wrap outcome.2)

variable (s : EncodedSeries K)

def trySeal (arena : BlockArena) : Mutation (EncodedSeries K) Unit :=
  if arena.adaptive then
    match s with
    | inlineFloatGorilla short => (.ok (), inlineFloatGorilla short)
    | inlineIntDelta short => (.ok (), inlineIntDelta short)
    | float encoding series =>
      onSeries (float encoding) (series.trySealCurrent (arena.fault series.blocks.length))
    | int encoding series =>
      onSeries (int encoding) (series.trySealCurrent (arena.fault series.blocks.length))
    | histogram encoding series =>
      onSeries (histogram encoding) (series.trySealCurrent (arena.fault series.blocks.length))
    | exponentialHistogram encoding series =>
      onSeries (exponentialHistogram encoding)
        (series.trySealCurrent (arena.fault series.blocks.length))
    | summary encoding series =>
      onSeries (summary encoding) (series.trySealCurrent (arena.fault series.blocks.length))
  else (.ok (), s.seal)

/-- The buffers of a block are always there, since a block has them itself. -/
def validateArena : Except IoError Unit :=
  let unsealed : Bool := match s with
    | .inlineFloatGorilla _ | .inlineIntDelta _ => false
    | .float _ series => series.current.isSome
    | .int _ series => series.current.isSome
    | .histogram _ series => series.current.isSome
    | .exponentialHistogram _ series => series.current.isSome
    | .summary _ series => series.current.isSome
  Codec.require (¬unsealed)
    (invalidInput "cannot validate an arena while a series block remains unsealed")

/-- A push to a short series: a free slot is filled; a full series is pushed into blocks first, and
replaced by them only if all of that succeeds. -/
def pushInline {V : Type} {C : BlockCodec V} (short : InlineNumericSeries)
    (inline : InlineNumericSeries → EncodedSeries K) (promoted : Series C → EncodedSeries K)
    (bits : V → UInt64) (decode : UInt64 → V) (arena : BlockArena)
    (baseMs timestampMs : UInt64) (value : V) (blockSize : Nat) :
    Mutation (EncodedSeries K) Unit :=
  if timestampMs < baseMs then (.error precedesWindowStart, inline short)
  else if !short.isFull then (.ok (), inline (short.push timestampMs (bits value)).2)
  else
    match Series.pushSamples arena baseMs blockSize
        (short.samples decode ++ [(timestampMs, value)]) (Series.new C) with
    | (.error error, _) => (.error error, inline short)
    | (.ok (), series) => (.ok (), promoted series)

def pushSample (arena : BlockArena) (baseMs timestampMs : UInt64) (value : SampleValue)
    (blockSize : Nat) : Mutation (EncodedSeries K) Unit :=
  match s, value with
  | inlineFloatGorilla short, .float value =>
    pushInline short inlineFloatGorilla (float .gorilla) F64.bits F64.mk arena baseMs timestampMs
      value blockSize
  | inlineIntDelta short, .int64 value =>
    pushInline short inlineIntDelta (int .deltaZigZag) Int64.toUInt64 UInt64.toInt64 arena baseMs
      timestampMs value blockSize
  | float encoding series, .float value =>
    onSeries (float encoding) (series.pushSample arena baseMs timestampMs value blockSize)
  | int encoding series, .int64 value =>
    onSeries (int encoding) (series.pushSample arena baseMs timestampMs value blockSize)
  | histogram encoding series, .histogram value =>
    onSeries (histogram encoding) (series.pushSample arena baseMs timestampMs value blockSize)
  | exponentialHistogram encoding series, .exponentialHistogram value =>
    onSeries (exponentialHistogram encoding)
      (series.pushSample arena baseMs timestampMs value blockSize)
  | summary encoding series, .summary value =>
    onSeries (summary encoding) (series.pushSample arena baseMs timestampMs value blockSize)
  | inlineFloatGorilla short, _ =>
    (.error (invalidInput "float series received non-float sample"), inlineFloatGorilla short)
  | float encoding series, _ =>
    (.error (invalidInput "float series received non-float sample"), float encoding series)
  | int .raw series, .float _ =>
    (.error (invalidInput "int series received float sample"), int .raw series)
  | inlineIntDelta short, _ =>
    (.error (invalidInput "int series received non-int sample"), inlineIntDelta short)
  | int encoding series, _ =>
    (.error (invalidInput "int series received non-int sample"), int encoding series)
  | histogram encoding series, _ =>
    (.error (invalidInput "histogram series received non-histogram sample"),
      histogram encoding series)
  | exponentialHistogram encoding series, _ =>
    (.error (invalidInput "exponential histogram series received non-histogram sample"),
      exponentialHistogram encoding series)
  | summary encoding series, _ =>
    (.error (invalidInput "summary series received non-summary sample"), summary encoding series)

def WF : EncodedSeries K → Prop
  | inlineFloatGorilla _ | inlineIntDelta _ => True
  | float _ series => series.WF
  | int _ series => series.WF
  | histogram _ series => series.WF
  | exponentialHistogram _ series => series.WF
  | summary _ series => series.WF

theorem new_spec (encoding : SeriesEncoding) (compact : Bool) (blockSize : Nat) :
    (new K encoding compact blockSize).entries = [] ∧ (new K encoding compact blockSize).WF ∧
      (new K encoding compact blockSize).kind = encoding.kind := by
  cases encoding with
  | float encoding =>
    cases encoding <;> cases compact <;>
      exact ⟨rfl, by first | exact Series.new_wf | exact trivial, rfl⟩
  | int encoding =>
    cases encoding <;> cases compact <;>
      exact ⟨rfl, by first | exact Series.new_wf | exact trivial, rfl⟩
  | histogram _ => exact ⟨rfl, Series.new_wf, rfl⟩
  | exponentialHistogram _ => exact ⟨rfl, Series.new_wf, rfl⟩
  | summary _ => exact ⟨rfl, Series.new_wf, rfl⟩

variable {s : EncodedSeries K}

theorem sampleCount_eq (h : s.WF) : s.sampleCount = min s.entries.length (counterMax 64) := by
  have hinline : ∀ short : InlineNumericSeries,
      short.slots.length = min short.slots.length (counterMax 64) := by
    intro short
    have hfits := short.fits
    have hsmall : inlineNumericSeriesCapacity ≤ counterMax 64 := by decide
    omega
  cases s with
  | inlineFloatGorilla short | inlineIntDelta short =>
    simpa [sampleCount, entries, tagged, InlineNumericSeries.samples] using hinline short
  | float _ series | int _ series | histogram _ series | exponentialHistogram _ series
  | summary _ series =>
    simpa [sampleCount, entries, tagged] using Series.WF.samples_eq h

/-- A call that moves samples between the parts of a series, and no more. -/
def Kept (s t : EncodedSeries K) : Prop :=
  t.entries = s.entries ∧ (s.WF → t.WF) ∧ t.kind = s.kind

variable (s)

theorem seal_kept : s.Kept s.seal := by
  cases s with
  | inlineFloatGorilla _ | inlineIntDelta _ => exact ⟨rfl, id, rfl⟩
  | float _ series | int _ series | histogram _ series | exponentialHistogram _ series
  | summary _ series =>
    obtain ⟨hentries, hwf, -⟩ := series.sealCurrent_spec
    exact ⟨congrArg (tagged _) hentries, hwf, rfl⟩

theorem trySeal_kept (arena : BlockArena) : s.Kept (s.trySeal arena).2 := by
  unfold trySeal
  split
  · cases s with
    | inlineFloatGorilla _ | inlineIntDelta _ => exact ⟨rfl, id, rfl⟩
    | float _ series | int _ series | histogram _ series | exponentialHistogram _ series
    | summary _ series =>
      obtain ⟨hentries, hwf, -⟩ := series.trySealCurrent_spec (arena.fault series.blocks.length)
      exact ⟨congrArg (tagged _) hentries, hwf, rfl⟩
  · exact s.seal_kept

/-- What a push does to a series: it keeps its kind and its counters, and adds the sample or fails. -/
def Pushed (timestampMs : UInt64) (value : SampleValue) (outcome : Mutation (EncodedSeries K) Unit)
    : Prop :=
  Appends (timestampMs, value) s.entries (outcome.1, outcome.2.entries) ∧ outcome.2.WF ∧
    outcome.2.kind = s.kind

variable {s}

theorem Pushed.failed (h : s.WF) (timestampMs : UInt64)
    (value : SampleValue) (error : IoError) : s.Pushed timestampMs value (.error error, s) :=
  ⟨rfl, h, rfl⟩

theorem tagged_appends {V : Type} {tag : V → SampleValue} {timestampMs : UInt64} {value : V}
    {before after : List (UInt64 × V)} {result : Except IoError Unit}
    (h : Appends (timestampMs, value) before (result, after)) :
    Appends (timestampMs, tag value) (tagged tag before) (result, tagged tag after) := by
  cases result with
  | error error => exact congrArg (tagged tag) h
  | ok _ =>
    have hafter : after = before ++ [(timestampMs, value)] := h
    rw [Appends, hafter]
    simp [tagged]

theorem pushInline_pushed {V : Type} {C : BlockCodec V} (inline : InlineNumericSeries → EncodedSeries K)
    (wrap : Series C → EncodedSeries K) {tag : V → SampleValue} {bits : V → UInt64}
    {decode : UInt64 → V}
    (hinline : ∀ short, (inline short).entries = tagged tag (short.samples decode))
    (hwrap : ∀ series, (wrap series).entries = tagged tag series.entries)
    (hwf : ∀ short, (inline short).WF) (hblocks : ∀ series, series.WF → (wrap series).WF)
    (hkind : ∀ short short', (inline short).kind = (inline short').kind)
    (hkinds : ∀ short series, (wrap series).kind = (inline short).kind)
    (hbits : ∀ value, decode (bits value) = value) (short : InlineNumericSeries)
    (arena : BlockArena) (baseMs timestampMs : UInt64) (value : V) {blockSize : Nat}
    (hsize : blockSize ≤ counterMax 32) :
    (inline short).Pushed timestampMs (tag value)
      (pushInline short inline wrap bits decode arena baseMs timestampMs value blockSize) := by
  unfold pushInline
  split
  · exact .failed (hwf short) ..
  split
  · rename_i hroom
    have hslots := InlineNumericSeries.push_slots (s := short) (by simpa using hroom) timestampMs
      (bits value)
    refine ⟨?_, hwf _, hkind ..⟩
    rw [hinline, hinline, Appends]
    simp [tagged, InlineNumericSeries.samples, hslots, hbits]
  split
  · exact .failed (hwf short) ..
  rename_i series hpushed
  obtain ⟨hentries, hserieswf⟩ := Series.pushSamples_ok hsize _ Series.new_wf hpushed
  refine ⟨?_, hblocks _ hserieswf, hkinds ..⟩
  rw [hinline, hwrap, Appends, hentries]
  simp [tagged]

theorem pushSample_pushed (h : s.WF) (arena : BlockArena) (baseMs timestampMs : UInt64)
    (value : SampleValue) {blockSize : Nat} (hsize : blockSize ≤ counterMax 32) :
    s.Pushed timestampMs value (s.pushSample arena baseMs timestampMs value blockSize) := by
  unfold pushSample
  split
  · rename_i short value
    exact pushInline_pushed inlineFloatGorilla (float .gorilla) (fun _ => rfl) (fun _ => rfl)
      (fun _ => trivial) (fun _ => id) (fun _ _ => rfl) (fun _ _ => rfl) (fun _ => rfl) short arena
      baseMs timestampMs value hsize
  · rename_i short value
    exact pushInline_pushed inlineIntDelta (int .deltaZigZag) (fun _ => rfl) (fun _ => rfl)
      (fun _ => trivial) (fun _ => id) (fun _ _ => rfl) (fun _ _ => rfl) Int64.toInt64_toUInt64 short
      arena baseMs timestampMs value hsize
  iterate 5
    · rename_i series value
      obtain ⟨happends, hwf⟩ := series.pushSample_spec h arena baseMs timestampMs value hsize
      exact ⟨tagged_appends happends, hwf, rfl⟩
  all_goals exact .failed h ..

end EncodedSeries

end Chronoxide
