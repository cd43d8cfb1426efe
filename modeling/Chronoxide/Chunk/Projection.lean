import Chronoxide.Chunk.ScalarValue

/-! Count and sum of a typed chunk without its buckets and quantiles, from the payload
(`decode_chunk_scalar_projection`) and from the lane alone (`decode_typed_scalar_lane`). -/

namespace Chronoxide
open Codec Parser ChunkSamples List

inductive ChunkScalarProjection
  | count
  | sum
  deriving DecidableEq, Repr

inductive ChunkScalarValue
  | count (value : UInt64)
  | sum (value : F64)
  deriving DecidableEq, Repr

structure ChunkScalarSample where
  timestampMs : UInt64
  metadata : TypedSampleMetadata
  value : Option ChunkScalarValue
  deriving DecidableEq, Repr

structure ChunkScalarProjectionRecord where
  seriesRef : UInt32
  kind : ChunkKind
  minTimeMs : UInt64
  maxTimeMs : UInt64
  samples : List ChunkScalarSample
  deriving DecidableEq, Repr

variable (projection : ChunkScalarProjection)

def ChunkScalarProjection.value (count : UInt64) (sum : Option F64) : Option ChunkScalarValue :=
  match projection with
  | .count => some (.count count)
  | .sum => sum.map .sum

def projectRow (row : DecodedTypedScalarLaneRow) : ChunkScalarSample :=
  ⟨row.timestampMs, row.metadata, projection.value row.count row.sum⟩

section LaneReaders
variable {σ : Type} (crc32c : Bytes → UInt32) (header : DecodedChunkHeader)

def forEachTypedScalarLaneSampleBody (body : Bytes) (projection : ChunkScalarProjection)
    (onSample : σ → ChunkScalarSample → Except IoError σ) (init : σ) : Except IoError σ :=
  forEachTypedScalarLaneRowBody header body
    (fun acc row => onSample acc (projectRow projection row)) init

def forEachTypedScalarLaneSample (lane : Bytes) (projection : ChunkScalarProjection)
    (onSample : σ → ChunkScalarSample → Except IoError σ) (init : σ) : Except IoError σ := do
  let body ← typedScalarLaneBody crc32c header lane
  forEachTypedScalarLaneSampleBody header body projection onSample init

def pushItem {α : Type} (items : List α) (item : α) : Except IoError (List α) :=
  .ok (items ++ [item])

def decodeTypedScalarLane (lane : Bytes) (projection : ChunkScalarProjection) :
    Except IoError ChunkScalarProjectionRecord := do
  let body ← typedScalarLaneBody crc32c header lane
  let samples ← forEachTypedScalarLaneSampleBody header body projection pushItem []
  return { seriesRef := header.seriesRef, kind := header.kind, minTimeMs := header.minTimeMs,
           maxTimeMs := header.maxTimeMs, samples }

def decodeTypedScalarLaneRows (lane : Bytes) : Except IoError (List DecodedTypedScalarLaneRow) :=
  if lane = [] then .ok [] else forEachTypedScalarLaneRow crc32c header lane pushItem []

end LaneReaders

def readScalarSchemaBuf : Reader Bytes := do
  let len ← decodeLen
  Parser.takeN len (unexpectedEof "schema buffer truncated")

def decodeScalarProjectionSchemas (kind : ChunkKind) (pointCount : Nat) :
    Reader (List ScalarProjectionSchema) := do
  let schemaCount ← decodeLen
  Parser.ensure (1 ≤ schemaCount ∧ schemaCount ≤ pointCount)
    (invalidData "schema-varlen scalar schema count is inconsistent with the point count")
  ensureMinimumEncodedItems schemaCount 1 "schema-varlen scalar schemas"
  decodeSchemaEntries readScalarSchemaBuf (decodeScalarProjectionSchema kind) schemaCount []

/-- A native row against the lane row of the same number, when there is a lane. -/
def checkNativeRow (laneRows : List DecodedTypedScalarLaneRow) (index : Nat)
    (row : DecodedTypedScalarLaneRow) : Except IoError Unit :=
  if laneRows = [] then .ok ()
  else match laneRows[index]? with
    | none =>
      .error (invalidData "typed scalar lane has fewer rows than the native projection")
    | some laneRow =>
      require (laneRow.timestampMs = row.timestampMs ∧ laneRow.metadata = row.metadata ∧
          laneRow.count = row.count ∧ optionalF64BitsEqual laneRow.sum row.sum)
        (invalidData "typed scalar lane row disagrees with the native projection")

section PayloadReaders
variable (kind : ChunkKind) (projection : ChunkScalarProjection)
  (laneRows : List DecodedTypedScalarLaneRow)

structure ScalarProgress where
  samples : List ChunkScalarSample
  nextFirstSeenSchema : Nat
  flags : TypedChunkFlagsAccumulator

def scalarSampleLoop (schemas : List ScalarProjectionSchema) :
    List UInt64 → ScalarProgress → Reader ScalarProgress
  | [], progress => return progress
  | timestampMs :: timestamps, progress => do
    let (schema, nextFirstSeenSchema) ← decodeSchemaIndex schemas progress.nextFirstSeenSchema
    let (metadata, count, sum) ← decodeScalarProjectionValue kind schema
    let row : DecodedTypedScalarLaneRow := ⟨timestampMs, metadata, count, sum⟩
    Parser.lift (checkNativeRow laneRows progress.samples.length row)
    scalarSampleLoop schemas timestamps
      ⟨progress.samples ++ [projectRow projection row], nextFirstSeenSchema,
        progress.flags.observe metadata⟩

def decodeSchemaVarlenScalarSamples (expectedFlags : UInt16) (timestamps : List UInt64)
    (buf : Bytes) : Except IoError (List ChunkScalarSample) :=
  Parser.value (do
    let schemas ← decodeScalarProjectionSchemas kind timestamps.length
    ensureMinimumEncodedItems timestamps.length 1 "schema-varlen scalar values"
    let progress ← scalarSampleLoop kind projection laneRows schemas timestamps ⟨[], 0, .default⟩
    Parser.atEnd (invalidData "value buffer has trailing bytes")
    Parser.ensure (progress.nextFirstSeenSchema = schemas.length)
      (invalidData "schema table contains an unused schema")
    Parser.ensure (progress.flags.finish = expectedFlags)
      (invalidData "typed chunk header flags disagree with native metadata")
    Parser.ensure (¬(laneRows ≠ [] ∧ laneRows.length ≠ progress.samples.length))
      (invalidData "typed scalar lane has more rows than the native projection")
    return progress.samples) buf

end PayloadReaders

def decodeChunkScalarProjection (crc32c : Bytes → UInt32) (payload : Bytes)
    (projection : ChunkScalarProjection) : Except IoError ChunkScalarProjectionRecord := do
  let decoded ← decodeChunkPayload crc32c payload
  require (decoded.numPoints ≠ 0) (invalidData "chunk has no points")
  require (decoded.encoding = .schemaVarLen)
    (invalidData "typed scalar projection requires schema varlen encoding")
  require decoded.kind.isTyped (invalidInput "typed scalar projection requires a typed chunk")
  let (t0Ms, body) ← readU64 decoded.payload
  require (t0Ms = decoded.minTimeMs)
    (invalidData "chunk timestamp base disagrees with min_time_ms")
  let (timestamps, buf) ← decodeTimestamps t0Ms decoded.numPoints.toNat body
  validateTimestampIter decoded.numPoints decoded.minTimeMs decoded.maxTimeMs timestamps
  let header ← decodeChunkHeader.value payload
  let lane := slice payload chunkHeaderLen header.headerLen
  let laneRows ← decodeTypedScalarLaneRows crc32c header lane
  let samples ← decodeSchemaVarlenScalarSamples decoded.kind projection laneRows decoded.flags
    timestamps buf
  return { seriesRef := decoded.seriesRef, kind := decoded.kind,
           minTimeMs := decoded.minTimeMs, maxTimeMs := decoded.maxTimeMs, samples }

def ChunkSamples.project : ChunkSamples → List ChunkScalarSample
  | .float _ | .int64 _ => []
  | .histogram samples => samples.map fun (t, v) => ⟨t, v.metadata, projection.value v.count v.sum⟩
  | .exponentialHistogram samples =>
    samples.map fun (t, v) => ⟨t, v.metadata, projection.value v.count v.sum⟩
  | .summary samples =>
    samples.map fun (t, v) => ⟨t, v.metadata, projection.value v.count (some v.sum)⟩

def ChunkRecord.project (record : ChunkRecord) : ChunkScalarProjectionRecord :=
  ⟨record.seriesRef, record.kind, record.minTimeMs, record.maxTimeMs,
    record.samples.project projection⟩

variable {rows : List DecodedTypedScalarLaneRow}

theorem ChunkSamples.project_laneRows {samples : ChunkSamples} (h : samples.laneRows = some rows)
    (projection : ChunkScalarProjection) :
    rows.map (projectRow projection) = samples.project projection := by
  cases samples <;> simp only [laneRows, reduceCtorEq, Option.some.injEq] at h <;> subst h <;>
    exact map_map

theorem foldlM_pushItem {α β : Type} (f : α → β) (items : List α) (init : List β) :
    items.foldlM (fun acc item => pushItem acc (f item)) init = .ok (init ++ items.map f) := by
  induction items generalizing init with
  | nil => simp [pure, Except.pure]
  | cons item items ih =>
    change items.foldlM _ (init ++ [f item]) = _
    rw [ih, append_assoc]
    rfl

section LaneRows
variable {σ : Type} {crc32c : Bytes → UInt32} {header : DecodedChunkHeader} {lane : Bytes}
  {projection : ChunkScalarProjection}

theorem forEachTypedScalarLaneSample_ok {onSample : σ → ChunkScalarSample → Except IoError σ}
    {init s : σ} :
    forEachTypedScalarLaneSample crc32c header lane projection onSample init = .ok s ↔
      ∃ rows, LaneOf crc32c header lane rows ∧
        (rows.map (projectRow projection)).foldlM onSample init = .ok s := by
  simp only [foldlM_map]
  exact forEachTypedScalarLaneRow_ok

theorem decodeTypedScalarLane_ok {r : ChunkScalarProjectionRecord} :
    decodeTypedScalarLane crc32c header lane projection = .ok r ↔
      ∃ rows, LaneOf crc32c header lane rows ∧ r = ⟨header.seriesRef, header.kind,
        header.minTimeMs, header.maxTimeMs, rows.map (projectRow projection)⟩ := by
  have hbind : decodeTypedScalarLane crc32c header lane projection =
      (forEachTypedScalarLaneSample crc32c header lane projection pushItem [] >>= fun samples =>
        pure ⟨header.seriesRef, header.kind, header.minTimeMs, header.maxTimeMs, samples⟩) := by
    rw [forEachTypedScalarLaneSample, bind_assoc]
    rfl
  rw [hbind, except_bind_ok]
  simp only [forEachTypedScalarLaneSample_ok, except_pure_ok, foldlM_map, foldlM_pushItem,
    nil_append, Except.ok.injEq]
  constructor
  · rintro ⟨_, ⟨rows, hlane, rfl⟩, rfl⟩
    exact ⟨rows, hlane, rfl⟩
  · rintro ⟨rows, hlane, rfl⟩
    exact ⟨_, ⟨rows, hlane, rfl⟩, rfl⟩

theorem decodeTypedScalarLaneRows_ok :
    decodeTypedScalarLaneRows crc32c header lane = .ok rows ↔
      (lane = [] ∧ rows = []) ∨ (lane ≠ [] ∧ LaneOf crc32c header lane rows) := by
  have hpush := fun rows => foldlM_pushItem (fun row : DecodedTypedScalarLaneRow => row) rows []
  unfold decodeTypedScalarLaneRows
  split
  · rename_i hempty
    simp [hempty, eq_comm]
  · rename_i hne
    simp [hne, forEachTypedScalarLaneRow_ok, hpush, map_id']

theorem LaneRows.ne_nil (h : LaneRows header rows) : rows ≠ [] := by
  rintro rfl
  exact h.range.ne_nil rfl

end LaneRows

def scalarRow (timestampMs : UInt64) (v : TypedSampleMetadata × UInt64 × Option F64) :
    DecodedTypedScalarLaneRow :=
  ⟨timestampMs, v.1, v.2.1, v.2.2⟩

theorem zipWith_scalarRow {T : Type} [TypedCounterValue T] (ts : List UInt64) (vs : List T) :
    zipWith scalarRow ts (vs.map scalars) = (ts.zip vs).map laneRow := by
  rw [zip, map_zipWith, zipWith_map_right]
  rfl

variable {laneRows : List DecodedTypedScalarLaneRow}

theorem checkNativeRow_ok {i : Nat} {row : DecodedTypedScalarLaneRow} {u : Unit} :
    checkNativeRow laneRows i row = .ok u ↔ laneRows = [] ∨ laneRows[i]? = some row := by
  unfold checkNativeRow
  split
  · rename_i hempty
    simp [hempty]
  rename_i hne
  rw [or_iff_right hne]
  cases laneRows[i]? with
  | none => simp
  | some laneRow =>
    obtain ⟨t, md, c, s⟩ := row
    obtain ⟨t', md', c', s'⟩ := laneRow
    simp [optionalF64BitsEqual_iff]

variable {timestamps : List UInt64}

section Loop
variable {kind : ChunkKind} {projection : ChunkScalarProjection}
  {laneRows : List DecodedTypedScalarLaneRow} {schemas : List ScalarProjectionSchema}

/-- The loop reads one tagged value for each timestamp and compares the rows with the lane from
the row it stands at. -/
theorem scalarSampleLoop_ok {progress progress' : ScalarProgress} {bs rest : Bytes} :
    scalarSampleLoop kind projection laneRows schemas timestamps progress bs =
        .ok (progress', rest) ↔
      ∃ vs seen, decodeTaggedValues schemas (decodeScalarProjectionValue kind) timestamps.length
          progress.nextFirstSeenSchema bs = .ok ((vs, seen), rest) ∧
        (laneRows = [] ∨
          zipWith scalarRow timestamps vs <+: laneRows.drop progress.samples.length) ∧
        progress' = ⟨progress.samples ++
            (zipWith scalarRow timestamps vs).map (projectRow projection), seen,
          ((zipWith scalarRow timestamps vs).map (·.metadata)).foldl
            TypedChunkFlagsAccumulator.observe progress.flags⟩ := by
  induction timestamps generalizing progress bs with
  | nil =>
    simp only [scalarSampleLoop, pure_ok, length_nil, decodeTaggedValues, Prod.mk.injEq]
    constructor
    · rintro ⟨rfl, rfl⟩
      exact ⟨[], _, ⟨⟨rfl, rfl⟩, rfl⟩, .inr (by simp), by simp⟩
    · rintro ⟨_, _, ⟨⟨rfl, rfl⟩, rfl⟩, -, rfl⟩
      simp
  | cons t ts ih =>
    simp only [scalarSampleLoop, length_cons, decodeTaggedValues, bind_ok, lift_ok, pure_ok,
      Prod.exists, Prod.mk.injEq, checkNativeRow_ok, ih, length_append]
    constructor
    · rintro ⟨s, seen1, _, hindex, md, c, sum, _, hvalue, _, _, ⟨hrow, rfl⟩, vs, seen, hrest, hrows,
        rfl⟩
      refine ⟨(md, c, sum) :: vs, seen, ⟨s, seen1, _, hindex, md, c, sum, _, hvalue, vs, seen, _,
        hrest, ⟨rfl, rfl⟩, rfl⟩, ?_, ?_⟩
      · exact or_iff_not_imp_left.mpr fun hne =>
          cons_prefix_drop_iff.mpr ⟨hrow.resolve_left hne, hrows.resolve_left hne⟩
      · simp [scalarRow]
    · rintro ⟨_, seen, ⟨s, seen1, _, hindex, md, c, sum, _, hvalue, vs, seen', _, hrest,
        ⟨rfl, rfl⟩, rfl⟩, hrows, rfl⟩
      rw [zipWith_cons_cons, cons_prefix_drop_iff] at hrows
      exact ⟨s, seen1, _, hindex, md, c, sum, _, hvalue, (), _, ⟨hrows.imp_right (·.1), rfl⟩, vs,
        seen', hrest, hrows.imp_right (·.2), by simp [scalarRow]⟩

end Loop

theorem readScalarSchemaBuf_readsEntry {N : Nat} (hN : N < 2 ^ 64) :
    ReadsEntry readScalarSchemaBuf N := by
  intro bs b rest hbs
  simp only [readScalarSchemaBuf, bind_ok, decodeLen_ok, takeN_ok, encodeEntry, append_assoc]
  constructor
  · rintro ⟨n, _, ⟨hn, rfl⟩, rfl, rfl⟩
    rfl
  · rintro rfl
    simp only [length_append] at hbs
    exact ⟨b.length, b ++ rest, ⟨by omega, rfl⟩, rfl, rfl⟩

theorem decodeTaggedValues_projects {S P V C : Type} {proj : S → P} {decode : S → Reader V}
    {skip : P → Reader C} {f : V → C} (hskip : ∀ s, Parser.Projects (skip (proj s)) (decode s) f)
    (schemas : List S) (n seen : Nat) :
    Parser.Projects (decodeTaggedValues (schemas.map proj) skip n seen)
      (decodeTaggedValues schemas decode n seen) (fun r => (r.1.map f, r.2)) := by
  induction n generalizing seen with
  | zero =>
    rintro bs ⟨cs, seen'⟩ rest
    simp only [decodeTaggedValues, pure_ok, Prod.exists, Prod.mk.injEq]
    constructor
    · rintro ⟨⟨rfl, rfl⟩, rfl⟩
      exact ⟨[], _, ⟨⟨rfl, rfl⟩, rfl⟩, rfl, rfl⟩
    · rintro ⟨_, _, ⟨⟨rfl, rfl⟩, rfl⟩, rfl, rfl⟩
      exact ⟨⟨rfl, rfl⟩, rfl⟩
  | succ n ih =>
    have hindex : ∀ bs p seen' rest,
        decodeSchemaIndex (schemas.map proj) seen bs = .ok ((p, seen'), rest) ↔
          ∃ s, decodeSchemaIndex schemas seen bs = .ok ((s, seen'), rest) ∧ proj s = p := by
      intro bs p seen' rest
      simp only [decodeSchemaIndex_ok, getElem?_map, Option.map_eq_some_iff]
      constructor
      · rintro ⟨i, hi, ⟨s, hs, rfl⟩, h⟩
        exact ⟨s, ⟨i, hi, hs, h⟩, rfl⟩
      · rintro ⟨s, ⟨i, hi, hs, h⟩, rfl⟩
        exact ⟨i, hi, ⟨s, hs, rfl⟩, h⟩
    rintro bs ⟨cs, seen'⟩ rest
    simp only [decodeTaggedValues, bind_ok, pure_ok, Prod.exists, Prod.mk.injEq, hindex]
    constructor
    · rintro ⟨_, seen1, _, ⟨s, hs, rfl⟩, c, _, hc, cs', seen2, _, hcs, ⟨rfl, rfl⟩, rfl⟩
      obtain ⟨v, hv, rfl⟩ := (hskip s _ _ _).mp hc
      obtain ⟨⟨vs, seen3⟩, hvs, heq⟩ := (ih seen1 _ _ _).mp hcs
      obtain ⟨rfl, rfl⟩ := Prod.mk.inj heq
      exact ⟨v :: vs, _, ⟨s, seen1, _, hs, v, _, hv, vs, _, _, hvs, ⟨rfl, rfl⟩, rfl⟩, rfl, rfl⟩
    · rintro ⟨_, _, ⟨s, seen1, _, hs, v, _, hv, vs, seen2, _, hvs, ⟨rfl, rfl⟩, rfl⟩, rfl, rfl⟩
      exact ⟨_, seen1, _, ⟨s, hs, rfl⟩, f v, _, (hskip s _ _ _).mpr ⟨v, hv, rfl⟩, vs.map f, seen2, _,
        (ih seen1 _ _ _).mpr ⟨(vs, seen2), hvs, rfl⟩, ⟨rfl, rfl⟩, rfl⟩

variable {out : List ChunkScalarSample}

section Typed
open SchemaVarLenEncoding LawfulSchemaVarLen
variable {T : Type} [SchemaVarLenEncoding T] [TypedCounterValue T]

/-- Values of the kind can be read for their scalars, given the reduced schemas. -/
structure Skippable (kind : ChunkKind) (scalar : Schema T → ScalarProjectionSchema) : Prop where
  schema : ∀ {buf p}, decodeScalarProjectionSchema kind buf = .ok p ↔
    ∃ s, decodeWhole (decodeSchema (T := T)) SchemaVarLenCodec.schemaBufferTrailing buf = .ok s ∧
      scalar s = p
  value : ∀ s, Parser.Projects (decodeScalarProjectionValue kind (scalar s))
    (decodeValueWithSchema s) (scalars (T := T))

theorem decodeWhole_projects {α γ : Type} {skip : Reader γ} {decode : Reader α} {f : α → γ}
    (h : Parser.Projects skip decode f) {trailing : String} {buf : Bytes} {c : γ} :
    decodeWhole skip trailing buf = .ok c ↔
      ∃ a, decodeWhole decode trailing buf = .ok a ∧ f a = c := by
  simp only [decodeWhole_ok]
  exact h buf c []

theorem histogram_skippable : Skippable (T := HistogramValue) .histogram HistogramSchema.scalar :=
  ⟨decodeWhole_projects decodeScalarHistogramSchema_projects,
    decodeScalarProjectionValue_histogram⟩

theorem exponentialHistogram_skippable :
    Skippable (T := ExponentialHistogramValue) .exponentialHistogram
      ExponentialHistogramSchema.scalar :=
  ⟨decodeWhole_projects decodeScalarExponentialHistogramSchema_projects,
    decodeScalarProjectionValue_exponentialHistogram⟩

theorem summary_skippable : Skippable (T := SummaryValue) .summary SummarySchema.scalar :=
  ⟨decodeWhole_projects decodeScalarSummarySchema_projects, decodeScalarProjectionValue_summary⟩

variable [LawfulSchemaVarLen T] {kind : ChunkKind} {scalar : Schema T → ScalarProjectionSchema}

theorem Skippable.entries (h : Skippable (T := T) kind scalar) {N n : Nat} (hN : N < 2 ^ 64)
    {bs rest : Bytes} (hbs : bs.length ≤ N) {ps : List ScalarProjectionSchema} :
    decodeSchemaEntries readScalarSchemaBuf (decodeScalarProjectionSchema kind) n [] bs =
        .ok (ps, rest) ↔
      ∃ ss, decodeSchemaEntries (SchemaVarLenCodec.readSchemaBuf N)
        (decodeWhole (decodeSchema (T := T)) SchemaVarLenCodec.schemaBufferTrailing) n [] bs =
          .ok (ss, rest) ∧ ss.map scalar = ps := by
  have hone {b : Bytes} {p : ScalarProjectionSchema} (hb : b.length < 2 ^ 64) :
      decodeScalarProjectionSchema kind b = .ok p ↔
        ∃ s, (SchemaValid s ∧ b = encodeSchema s) ∧ scalar s = p := by
    simp [h.schema, decodeWhole_schema _ hb]
  rw [decodeSchemaEntries_table hN (readScalarSchemaBuf_readsEntry hN) hone hbs]
  simp only [decodeWhole_entries hN hbs]
  constructor
  · rintro ⟨ss, rfl, hss⟩
    exact ⟨ss, hss, rfl⟩
  · rintro ⟨ss, hss, rfl⟩
    exact ⟨ss, rfl, hss⟩

/-- The value buffer is accepted for its scalars exactly when it is accepted in full, and the lane
rows, when given, are those of the values. -/
theorem Skippable.decodeSchemaVarlenScalarSamples_ok (h : Skippable (T := T) kind scalar)
    {projection : ChunkScalarProjection}
    {flags : UInt16} (hne : timestamps ≠ []) {buf : Bytes}
    (hbuf : buf.length < 2 ^ 64) :
    decodeSchemaVarlenScalarSamples kind projection laneRows flags timestamps buf = .ok out ↔
      ∃ vs : List T, SchemaVarLenCodec.decodeValues buf timestamps.length = .ok vs ∧
        (laneRows = [] ∨ laneRows = (timestamps.zip vs).map laneRow) ∧
        typedChunkFlags (((timestamps.zip vs).map laneRow).map (·.metadata)) = flags ∧
        out = ((timestamps.zip vs).map laneRow).map (projectRow projection) := by
  have hpoints : timestamps.length ≠ 0 := fun hzero => hne (length_eq_zero_iff.mp hzero)
  have htagged := fun ss seen => decodeTaggedValues_projects h.value ss timestamps.length seen
  rw [decodeSchemaVarlenScalarSamples, SchemaVarLenCodec.decodeValues, value_ok]
  simp only [value_ok, decodeScalarProjectionSchemas, SchemaVarLenCodec.decodeValuesFrom,
    ensureMinimumEncodedItems, bind_ok, ensure_ok, exists_ensure, ensureDecodedItemsFit_ok,
    atEnd_ok, pure_ok, Prod.exists, scalarSampleLoop_ok, length_nil, drop_zero, nil_append]
  constructor
  · rintro ⟨_, ps, _, ⟨n, mid, hn, hrange, hfit, hentries⟩, hfit', progress, _, ⟨cs, seen, hcs, hrows,
      rfl⟩, _, _, ⟨rfl, rfl⟩, hseen, hflags, hcount, rfl, rfl⟩
    obtain ⟨hnlt, rfl⟩ := decodeLen_ok.mp hn
    have hshort : mid.length ≤ (encodeLen n ++ mid).length := by
      rw [length_append]
      omega
    obtain ⟨ss, hss, rfl⟩ := (h.entries hbuf hshort).mp hentries
    obtain ⟨hlen, -⟩ := (decodeWhole_entries hbuf hshort).mp hss
    obtain ⟨⟨vs, seen'⟩, hvs, heq⟩ := (htagged ss _ _ _ _).mp hcs
    obtain ⟨rfl, rfl⟩ := Prod.mk.inj heq
    rw [length_map, hlen] at hseen
    rw [zipWith_scalarRow] at hrows hflags hcount
    refine ⟨vs, ⟨_, n, _, hn, by omega, hfit, ss, _, hss, hfit', vs, seen', _, hvs, hseen, (), [],
      ⟨rfl, rfl⟩, rfl, rfl⟩, ?_, hflags, by rw [zipWith_scalarRow]⟩
    refine or_iff_not_imp_left.mpr fun hlane => ?_
    have hpre := hrows.resolve_left hlane
    rw [length_map] at hcount
    exact (hpre.eq_of_length (by tauto)).symm
  rintro ⟨vs, ⟨_, n, mid, hn, hrange, hfit, ss, _, hss, hfit', _, seen, _, hvs, rfl, _, _, ⟨rfl, rfl⟩,
    rfl, rfl⟩, hrows, hflags, rfl⟩
  obtain ⟨hnlt, rfl⟩ := decodeLen_ok.mp hn
  have hshort : mid.length ≤ (encodeLen seen ++ mid).length := by
    rw [length_append]
    omega
  obtain ⟨hlen, -⟩ := (decodeWhole_entries hbuf hshort).mp hss
  have hcs := (htagged ss 0 _ _ _).mpr ⟨_, hvs, rfl⟩
  refine ⟨_, ss.map scalar, _, ⟨_, _, hn, by omega, hfit, (h.entries hbuf hshort).mpr
    ⟨ss, hss, rfl⟩⟩, hfit', _, _, ⟨_, _, hcs, ?_, rfl⟩, (), [], ⟨rfl, rfl⟩, ?_, ?_, ?_, ?_, rfl⟩
  · rw [zipWith_scalarRow]
    refine hrows.imp_right fun hall => ?_
    rw [hall]
  · rw [length_map, hlen]
  · rw [zipWith_scalarRow]
    exact hflags
  · rintro ⟨hlane, hcount⟩
    rw [zipWith_scalarRow, length_map] at hcount
    exact hcount (congrArg length (hrows.resolve_left hlane))
  · rw [zipWith_scalarRow]

/-- What the projection accepts of a payload behind its base timestamp: the samples that full
decoding returns, with lane rows that are theirs. -/
def ProjectsTo (kind : ChunkKind) (projection : ChunkScalarProjection)
    (laneRows : List DecodedTypedScalarLaneRow) (flags : UInt16) (n : Nat) (t0 : UInt64)
    (body : Bytes) (timestamps : List UInt64) (out : List ChunkScalarSample) : Prop :=
  ∃ samples rows, samples.kind = kind ∧ samples.timestamps = timestamps ∧
    (samples.timestamps.length = n ∧ (∀ t ∈ samples.timestamps, t0 ≤ t) ∧
      encodeBody .schemaVarLen t0 samples = .ok body) ∧
    samples.laneRows = some rows ∧ (laneRows = [] ∨ laneRows = rows) ∧ samples.flags = flags ∧
    out = samples.project projection

theorem Skippable.projectsTo (h : Skippable (T := T) kind scalar)
    {wrap : List (UInt64 × T) → ChunkSamples} (hkind : ∀ s : ChunkSamples, s.kind = kind ↔ ∃ l, s = wrap l)
    (htimes : ∀ l, (wrap l).timestamps = l.map (·.1))
    (hencode : ∀ t0 l, encodeBody .schemaVarLen t0 (wrap l) = encodeSplitBody encodeSchemaValues t0 l)
    (hrows : ∀ l, (wrap l).laneRows = some (l.map laneRow))
    {projection : ChunkScalarProjection}
    {flags : UInt16} {n : Nat} (hpos : n ≠ 0) (hn : n < 2 ^ 32) {t0 : UInt64} {body : Bytes}
    (hbody : body.length < 2 ^ 32) :
    (∃ buf, decodeTimestamps t0 n body = .ok (timestamps, buf) ∧
      decodeSchemaVarlenScalarSamples kind projection laneRows flags timestamps buf = .ok out) ↔
      ProjectsTo kind projection laneRows flags n t0 body timestamps out := by
  have hflags : ∀ l, (wrap l).flags = typedChunkFlags ((l.map laneRow).map (·.metadata)) :=
    fun l => (laneRows_flags (hrows l)).symm
  have hproject : ∀ l, (l.map laneRow).map (projectRow projection) = (wrap l).project projection :=
    fun l => project_laneRows (hrows l) projection
  constructor
  · rintro ⟨buf, htimestamps, hsamples⟩
    obtain ⟨⟨rfl, hle⟩, rfl⟩ := (decodeTimestamps_ok (by omega)).mp htimestamps
    rw [length_append] at hbody
    have hne : timestamps ≠ [] := fun hnil => hpos (by rw [hnil]; rfl)
    obtain ⟨vs, hvs, hlane, rfl, rfl⟩ :=
      (h.decodeSchemaVarlenScalarSamples_ok hne (by omega)).mp hsamples
    obtain ⟨hlen, hstorable, rfl⟩ := (decodeValues_ok hpos (by omega)).mp hvs
    have hfst : (timestamps.zip vs).map (·.1) = timestamps := map_fst_zip hlen.ge
    have hsnd : (timestamps.zip vs).map (·.2) = vs := map_snd_zip hlen.le
    refine ⟨wrap (timestamps.zip vs), _, (hkind _).mpr ⟨_, rfl⟩, ?_, ⟨?_, ?_, ?_⟩, hrows _, hlane,
      hflags _, hproject _⟩
    · rw [htimes, hfst]
    · rw [htimes, hfst]
    · rw [htimes, hfst]
      exact hle
    rw [hencode, encodeSplitBody_ok, hfst, hsnd]
    refine ⟨_, (encodeSchemaValues_ok (by omega) (by omega)).mpr ⟨?_, hstorable, rfl⟩, rfl⟩
    rintro rfl
    exact hpos hlen.symm
  rintro ⟨samples, rows, hk, rfl, ⟨rfl, hle, henc⟩, hr, hlane, rfl, rfl⟩
  obtain ⟨l, rfl⟩ := (hkind _).mp hk
  obtain rfl := Option.some.inj ((hrows l).symm.trans hr)
  rw [hencode, encodeSplitBody_ok] at henc
  obtain ⟨buf, hbuf, rfl⟩ := henc
  rw [htimes, length_map] at hpos hn
  rw [htimes] at hle ⊢
  rw [length_append] at hbody
  obtain ⟨-, hstorable, rfl⟩ := (encodeSchemaValues_ok (by omega)
    (by rw [length_map]; omega)).mp hbuf
  have hzip : (l.map (·.1)).zip (l.map (·.2)) = l := by
    rw [zip_map', map_id']
  have hlen : (l.map (·.2)).length = (l.map (·.1)).length := by
    rw [length_map, length_map]
  have hvalues := (decodeValues_ok (by rwa [length_map]) (by omega)).mpr
    ⟨hlen, hstorable, rfl⟩
  refine ⟨_, (decodeTimestamps_ok (by rw [length_append]; omega)).mpr ⟨⟨rfl, hle⟩, rfl⟩,
    (h.decodeSchemaVarlenScalarSamples_ok ?_ (by omega)).mpr ⟨_, hvalues, ?_, ?_, ?_⟩⟩
  · intro hnil
    rw [map_eq_nil_iff.mp hnil] at hpos
    exact hpos rfl
  · rwa [hzip]
  · rw [hzip, hflags]
  · rw [hzip, hproject]

end Typed

section Record
variable {crc32c : Bytes → UInt32} {bs : Bytes} {projection : ChunkScalarProjection}

theorem decodeScalarSamples_projectsTo {kind : ChunkKind} (htyped : kind.isTyped)
    {flags : UInt16} {n : Nat} (hpos : n ≠ 0)
    (hn : n < 2 ^ 32) {t0 : UInt64} {body : Bytes} (hbody : body.length < 2 ^ 32) :
    (∃ buf, decodeTimestamps t0 n body = .ok (timestamps, buf) ∧
      decodeSchemaVarlenScalarSamples kind projection laneRows flags timestamps buf = .ok out) ↔
      ProjectsTo kind projection laneRows flags n t0 body timestamps out := by
  cases kind with
  | float => cases htyped
  | int64 => cases htyped
  | histogram =>
    exact histogram_skippable.projectsTo kind_histogram (fun _ => rfl) (fun _ _ => rfl)
      (fun _ => rfl) hpos hn hbody
  | exponentialHistogram =>
    exact exponentialHistogram_skippable.projectsTo kind_exponentialHistogram (fun _ => rfl)
      (fun _ _ => rfl) (fun _ => rfl) hpos hn hbody
  | summary =>
    exact summary_skippable.projectsTo kind_summary (fun _ => rfl) (fun _ _ => rfl)
      (fun _ => rfl) hpos hn hbody

variable {record : ChunkRecord}

theorem decodeChunkRecord_ok :
    decodeChunkRecord crc32c bs = .ok record ↔ ∃ encoding body lane,
      record.StoredAs crc32c encoding body lane ∧
        bs = encodeChunkRecord crc32c (record.stored encoding body) lane := by
  have hmap : decodeChunkRecord crc32c bs = .ok record ↔
      ∃ layout, decodeChunkRecordWithLayout crc32c bs = .ok (record, layout) := by
    unfold decodeChunkRecord
    rcases decodeChunkRecordWithLayout crc32c bs with e | ⟨r, layout⟩
    · simp [Except.map]
    · simp [Except.map]
  simp only [hmap, decodeChunkRecordWithLayout_ok]
  constructor
  · rintro ⟨_, encoding, body, lane, hstored, hbs, rfl⟩
    exact ⟨encoding, body, lane, hstored, hbs⟩
  · rintro ⟨encoding, body, lane, hstored, hbs⟩
    exact ⟨_, encoding, body, lane, hstored, hbs, rfl⟩

theorem ChunkSamples.exists_laneRows {samples : ChunkSamples} (h : samples.kind.isTyped) :
    ∃ rows, samples.laneRows = some rows := by
  cases samples with
  | float _ => cases h
  | int64 _ => cases h
  | histogram _ => exact ⟨_, rfl⟩
  | exponentialHistogram _ => exact ⟨_, rfl⟩
  | summary _ => exact ⟨_, rfl⟩

theorem decodeChunkScalarProjection_ok {r : ChunkScalarProjectionRecord} :
    decodeChunkScalarProjection crc32c bs projection = .ok r ↔
      ∃ (record : ChunkRecord) (body lane : Bytes),
        record.StoredAs crc32c .schemaVarLen body lane ∧
        bs = encodeChunkRecord crc32c (record.stored .schemaVarLen body) lane ∧
        record.kind.isTyped ∧ r = record.project projection := by
  simp only [decodeChunkScalarProjection, except_bind_ok, decodeChunkPayload_ok, Prod.exists,
    readU64_ok, require_ok, exists_const, except_pure_ok, validateTimestampIter_ok]
  constructor
  · rintro ⟨d, ⟨lane, hfits, rfl⟩, hpoints, hencoding, htyped, t0, body, hpayload, rfl, timestamps,
      buf, htimestamps, ⟨hcount, hrange⟩, header, hheader, laneRows, hlane, out, hsamples, rfl⟩
    have hbody : body.length < 2 ^ 32 := by
      have := hfits.2
      rw [hpayload, length_append] at this
      omega
    have hnonzero : d.numPoints.toNat ≠ 0 := fun hzero => hpoints (UInt32.toNat_inj.mp hzero)
    obtain ⟨samples, rows, hkind, rfl, ⟨-, -, hencode⟩, hrows, hsame, hflags, rfl⟩ :=
      (decodeScalarSamples_projectsTo htyped hnonzero d.numPoints.toNat_lt hbody).mp
        ⟨buf, htimestamps, hsamples⟩
    rw [decodeChunkHeader_record hfits] at hheader
    obtain rfl := Except.ok.inj hheader
    rw [slice_lane] at hlane
    have hnum : d.numPoints = UInt32.ofNat samples.timestamps.length := by
      rw [hcount, UInt32.ofNat_toNat]
    set record : ChunkRecord := ⟨d.seriesRef, d.kind, d.minTimeMs, d.maxTimeMs, samples⟩
    have hstored : record.stored .schemaVarLen body = d := by
      obtain ⟨kind, encoding, flags, series, min, max, points, payload⟩ := d
      simp_all [ChunkRecord.stored, record]
    refine ⟨record, body, lane, ⟨hkind, hrange, hcount ▸ d.numPoints.toNat_lt, hencode, ?_, by
      rwa [hstored]⟩, by rw [hstored], htyped, rfl⟩
    obtain ⟨hempty, -⟩ | ⟨-, hlane⟩ := decodeTypedScalarLaneRows_ok.mp hlane
    · exact .inl hempty
    · obtain rfl := hsame.resolve_left hlane.ne_nil
      exact .inr ⟨_, hrows, hlane.short, hlane.bytes⟩
  rintro ⟨record, body, lane, h, rfl, htyped, rfl⟩
  have hbody := h.body_length
  have hkind : record.samples.kind.isTyped := h.kind ▸ htyped
  obtain ⟨rows, hrows⟩ := exists_laneRows hkind
  have hpoints := h.numPoints_toNat
  -- the lane of a stored record is absent or decodes to the rows of its samples
  obtain ⟨laneRows, hlane, hsame⟩ : ∃ laneRows, decodeTypedScalarLaneRows crc32c
      (recordHeader crc32c (record.stored .schemaVarLen body) lane) lane = .ok laneRows ∧
        (laneRows = [] ∨ laneRows = rows) := by
    obtain hempty | ⟨hne, rows', hrows', hlane⟩ := h.lane_verifies
    · exact ⟨[], decodeTypedScalarLaneRows_ok.mpr (.inl ⟨hempty, rfl⟩), .inl rfl⟩
    · obtain rfl := Option.some.inj (hrows.symm.trans hrows')
      exact ⟨rows, decodeTypedScalarLaneRows_ok.mpr (.inr ⟨hne, hlane⟩), .inr rfl⟩
  obtain ⟨buf, htimestamps, hsamples⟩ := (decodeScalarSamples_projectsTo hkind h.numPoints_toNat_ne_zero
    (record.stored .schemaVarLen body).numPoints.toNat_lt (by omega)).mpr
    ⟨record.samples, rows, rfl, rfl, ⟨hpoints.symm, h.range.min_le, h.encoded⟩, hrows, hsame, rfl,
      rfl⟩
  refine ⟨_, ⟨lane, h.fits, rfl⟩, h.numPoints_ne_zero, rfl, hkind, record.minTimeMs, body, rfl, rfl,
    record.samples.timestamps, buf, htimestamps, ⟨hpoints.symm, h.range⟩, _,
    decodeChunkHeader_record h.fits, laneRows, ?_, _, hsamples, ?_⟩
  · rwa [slice_lane]
  · change ChunkScalarProjectionRecord.mk _ record.samples.kind _ _ _ = _
    rw [h.kind]
    rfl

theorem ChunkRecord.StoredAs.lane_rows {encoding : ChunkEncoding}
    {body lane : Bytes} (h : record.StoredAs crc32c encoding body lane) (hne : lane ≠ []) :
    ∃ rows, record.samples.laneRows = some rows ∧
      ∀ rows', LaneOf crc32c (recordHeader crc32c (record.stored encoding body) lane) lane rows' ↔
        rows' = rows := by
  obtain hempty | ⟨-, rows, hrows, hlane⟩ := h.lane_verifies
  · exact absurd hempty hne
  refine ⟨rows, hrows, fun rows' => ⟨fun hlane' => ?_, fun hsame => hsame ▸ hlane⟩⟩
  have hread := decodeTypedScalarLaneRows_ok.mpr (.inr ⟨hne, hlane⟩)
  have hread' := decodeTypedScalarLaneRows_ok.mpr (.inr ⟨hne, hlane'⟩)
  exact Except.ok.inj (hread'.symm.trans hread)

end Record

/-- Reading a record for one scalar succeeds exactly when full decoding gives typed samples, and
returns their projection; so does reading its lane alone, where there is one. -/
theorem scalar_projection_eq_full_decode (crc32c : Bytes → UInt32) (bs : Bytes)
    (projection : ChunkScalarProjection) :
    (∀ r, decodeChunkScalarProjection crc32c bs projection = .ok r ↔
      ∃ record, decodeChunkRecord crc32c bs = .ok record ∧ record.kind.isTyped ∧
        r = record.project projection) ∧
    ∀ record, decodeChunkRecord crc32c bs = .ok record →
      ∃ header, decodeChunkHeader.value bs = .ok header ∧
        (slice bs chunkHeaderLen header.headerLen ≠ [] →
          decodeTypedScalarLane crc32c header (slice bs chunkHeaderLen header.headerLen)
              projection = .ok (record.project projection) ∧
          ∀ (σ : Type) (onSample : σ → ChunkScalarSample → Except IoError σ) (init s : σ),
            forEachTypedScalarLaneSample crc32c header
                (slice bs chunkHeaderLen header.headerLen) projection onSample init = .ok s ↔
              (record.samples.project projection).foldlM onSample init = .ok s) := by
  constructor
  · intro r
    rw [decodeChunkScalarProjection_ok]
    constructor
    · rintro ⟨record, body, lane, hstored, hbs, htyped, rfl⟩
      exact ⟨record, decodeChunkRecord_ok.mpr ⟨_, body, lane, hstored, hbs⟩, htyped, rfl⟩
    rintro ⟨record, hdecode, htyped, rfl⟩
    obtain ⟨encoding, body, lane, hstored, hbs⟩ := decodeChunkRecord_ok.mp hdecode
    obtain ⟨rows, hrows⟩ := exists_laneRows (hstored.kind ▸ htyped)
    obtain ⟨rfl, -⟩ := laneRows_encoding hrows hstored.encoded
    exact ⟨record, body, lane, hstored, hbs, htyped, rfl⟩
  intro record hdecode
  obtain ⟨encoding, body, lane, hstored, rfl⟩ := decodeChunkRecord_ok.mp hdecode
  refine ⟨_, decodeChunkHeader_record hstored.fits, ?_⟩
  rw [slice_lane]
  intro hne
  obtain ⟨rows, hrows, honly⟩ := hstored.lane_rows hne
  have hproject := project_laneRows hrows projection
  constructor
  · refine decodeTypedScalarLane_ok.mpr ⟨rows, (honly rows).mpr rfl, ?_⟩
    rw [hproject, ChunkRecord.project, ← hstored.kind]
    rfl
  · intro σ onSample init s
    simp [forEachTypedScalarLaneSample_ok, ← hproject, honly]

def summaryRecord : ChunkRecord :=
  ⟨7, .summary, 5, 5, .summary [(5, ⟨2, F64.one, ⟨none, 0, .cumulative, .unknown⟩, []⟩)]⟩

def summaryRecordBytes : Bytes :=
  encodeChunkRecord (fun _ => 0)
    (summaryRecord.stored .schemaVarLen [0, 1, 1, 0, 0, 0, 2, 0, 0, 2, 0, 0, 0, 0, 0, 0, 240, 63])
    (encodeLane (fun _ => 0)
      (encodeLaneBody 5 [⟨5, ⟨none, 0, .cumulative, .unknown⟩, 2, some F64.one⟩]))

theorem scalar_projection_summary_record :
    decodeChunkScalarProjection (fun _ => 0) summaryRecordBytes .count =
        .ok (summaryRecord.project .count) ∧
      ∃ header, decodeChunkHeader.value summaryRecordBytes = .ok header ∧
        decodeTypedScalarLane (fun _ => 0) header
          (slice summaryRecordBytes chunkHeaderLen header.headerLen) .sum =
            .ok (summaryRecord.project .sum) := by
  have hdecode : decodeChunkRecord (fun _ => 0) summaryRecordBytes = .ok summaryRecord := by
    decide +kernel
  refine ⟨((scalar_projection_eq_full_decode _ _ _).1 _).mpr ⟨_, hdecode, rfl, rfl⟩, ?_⟩
  obtain ⟨header, hheader, hlane⟩ :=
    (scalar_projection_eq_full_decode (fun _ => 0) summaryRecordBytes .sum).2 _ hdecode
  refine ⟨header, hheader, (hlane ?_).1⟩
  obtain rfl := Except.ok.inj
    ((decodeChunkHeader_record ⟨by decide +kernel, by decide +kernel⟩).symm.trans hheader)
  decide +kernel

end Chronoxide
