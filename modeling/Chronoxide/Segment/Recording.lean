import Chronoxide.Program.Fallible
import Chronoxide.Program.Machine
import Chronoxide.Segment.ChunkRewrite

/-! Recording samples into the active segment (`segment/writer/record.rs`) and sealing its chunks
(`segment/writer/seal.rs`). A call is cut at the borders of the segment windows; every run becomes
one chunk of its series, and a run of another window seals the segment first. -/

namespace Chronoxide
open Codec StableSort Fallible Triple List

def segmentWindow (timestampMs durationMs : UInt64) : UInt64 × UInt64 :=
  -- the remainder is at most the timestamp
  let startMs := timestampMs - timestampMs % durationMs
  (startMs, saturatingAdd startMs durationMs)

inductive SegmentPayloadLane
  | inOrder
  | outOfOrder
  deriving DecidableEq, Repr

def SegmentPayloadLane.fileId : SegmentPayloadLane → UInt8
  | .inOrder => 0
  | .outOfOrder => 1

/-- A segment that is recorded. The local reference of a series is its place in `seriesMap`. -/
structure ActiveSegment where
  startMs : UInt64
  endMs : UInt64
  seriesMap : List SeriesRef
  chunkEntries : List (List ChunkIndexEntry)
  chunks : ChunkWriter

/-- The chunks of a sealed segment: their entries by final series reference, and the final
references by local ones. -/
structure SealedChunks where
  seriesMap : List SeriesRef
  oldToNewRefs : List UInt32
  payload : Bytes
  chunkEntries : List (List ChunkIndexEntry)

structure SegmentWriter where
  segmentDurationMs : Nat
  nextPayloadLane : SegmentPayloadLane
  active : Option ActiveSegment
  segments : List SealedChunks

/-- `order` is the order of the final series, or none if they were recorded in it. -/
def sealChunks (crc32c : Bytes → UInt32) (active : ActiveSegment) (order : Option (List Nat)) :
    Except IoError SealedChunks := do
  require (active.seriesMap.length = active.chunkEntries.length)
    (invalidData "series and chunk entry counts differ")
  match order with
  | some seriesOrder => do
    let oldToNewRefs ← oldToNewSeriesRefs seriesOrder
    let (payload, chunkEntries) ← rewriteChunksInSeriesMajorOrder crc32c active.chunks.file
      active.chunks.fileId active.chunkEntries seriesOrder oldToNewRefs
    let chunkEntries ← reorderVecByOldIndices chunkEntries seriesOrder "chunk entries"
    return ⟨active.seriesMap, oldToNewRefs, payload, chunkEntries⟩
  | none => do
    let (payload, chunkEntries) ← rewriteChunksInIdentitySeriesOrder crc32c active.chunks.file
      active.chunks.fileId active.chunkEntries
    let identity := (List.range active.seriesMap.length).map UInt32.ofNat
    return ⟨active.seriesMap, identity, payload, chunkEntries⟩

namespace ActiveSegment

/-- `ensure_local_series_with_kind`, without the metadata of the series. -/
def ensureLocalSeries (series : SeriesRef) : Program ActiveSegment IoError UInt32 := do
  let active ← get
  match active.seriesMap.idxOf? series with
  | some localRef => return UInt32.ofNat localRef
  | none => do
    Program.lift (require (active.seriesMap.length < 2 ^ 32)
      (invalidInput "series_ref exceeds u32"))
    modify fun active => { active with
      seriesMap := active.seriesMap ++ [series], chunkEntries := active.chunkEntries ++ [[]] }
    return UInt32.ofNat active.seriesMap.length

def pushEntry (active : ActiveSegment) (localRef : UInt32) (entry : ChunkIndexEntry)
    (chunks : ChunkWriter) : ActiveSegment :=
  { active with chunks
                chunkEntries := active.chunkEntries.modify localRef.toNat (· ++ [entry]) }

def recordRun (crc32c : Bytes → UInt32) (series : SeriesRef) (append : UInt32 → AppendCall) :
    Program ActiveSegment IoError Unit := do
  let localRef ← ensureLocalSeries series
  let active ← get
  let (entry, chunks) ← Program.lift ((append localRef).run crc32c active.chunks)
  modify fun active => active.pushEntry localRef entry chunks

end ActiveSegment

def windowRunsFrom {V : Type} (durationMs startMs : UInt64) (run : List (UInt64 × V)) :
    List (UInt64 × V) → List (List (UInt64 × V))
  | [] => [run]
  | sample :: rest =>
    if (segmentWindow sample.1 durationMs).1 = startMs then
      windowRunsFrom durationMs startMs (run ++ [sample]) rest
    else run :: windowRunsFrom durationMs (segmentWindow sample.1 durationMs).1 [sample] rest

def windowRuns {V : Type} (durationMs : UInt64) : List (UInt64 × V) → List (List (UInt64 × V))
  | [] => []
  | sample :: rest => windowRunsFrom durationMs (segmentWindow sample.1 durationMs).1 [sample] rest

namespace SegmentWriter

section
variable (crc32c : Bytes → UInt32) (seriesOrder : ActiveSegment → Option (List Nat))

/-- The part of `flush_inner` that rewrites the payload. The stages behind it, which assemble the
index and metadata files of the segment and may refuse it, are left out. -/
def flush : Program SegmentWriter IoError Unit := do
  let self ← get
  match self.active with
  | none => return ()
  | some active => do
    modify fun self => { self with active := none }
    let chunks ← Program.lift (sealChunks crc32c active (seriesOrder active))
    modify fun self => { self with segments := self.segments ++ [chunks] }

def checkedDurationMs : Program SegmentWriter IoError UInt64 := do
  let self ← get
  Program.lift (require (self.segmentDurationMs ≠ 0) (invalidInput "segment_duration must be > 0"))
  Program.lift (require (self.segmentDurationMs < 2 ^ 64)
    (invalidInput "segment_duration is too large"))
  return UInt64.ofNat self.segmentDurationMs

def ensureActiveWindow (window : UInt64 × UInt64) : Program SegmentWriter IoError Unit := do
  let self ← get
  if self.active.any fun active => (active.startMs, active.endMs) = window then return ()
  else do
    flush crc32c seriesOrder
    let self ← get
    let chunks ← Program.lift (ChunkWriter.new [] (by decide) self.nextPayloadLane.fileId)
    modify fun self => { self with
      active := some ⟨window.1, window.2, [], [], chunks⟩, nextPayloadLane := .inOrder }

def onActive (m : Program ActiveSegment IoError Unit) : Program SegmentWriter IoError Unit := do
  let self ← get
  match self.active with
  | none => return ()
  | some active =>
    Fallible.zoom (fun self => self.active.getD active)
      (fun active self => { self with active := some active }) m

def recordWindows {V : Type} (append : UInt32 → List (UInt64 × V) → AppendCall)
    (series : SeriesRef) (samples : List (UInt64 × V)) :
    Program SegmentWriter IoError Unit := do
  let durationMs ← checkedDurationMs
  (windowRuns durationMs samples).forM fun run => do
    let window := segmentWindow ((run.map (·.1)).headD 0) durationMs
    ensureActiveWindow crc32c seriesOrder window
    onActive (ActiveSegment.recordRun crc32c series fun localRef => append localRef run)

def recordSamplesOrdered {V : Type} (append : UInt32 → List (UInt64 × V) → AppendCall)
    (series : SeriesRef) (samples : List (UInt64 × V)) :
    Program SegmentWriter IoError Unit :=
  if samples = [] then return ()
  else do
    Program.lift (require (¬outOfOrder (samples.map (·.1)))
      (invalidInput "ordered samples must be sorted by timestamp"))
    recordWindows crc32c seriesOrder append series samples

end

end SegmentWriter

def floatAppend (raw : Bool) (localRef : UInt32) (samples : List (UInt64 × F64)) : AppendCall :=
  if raw then .floatChunkRawOrdered localRef samples else .floatChunkOrdered localRef samples

def intAppend (raw : Bool) (localRef : UInt32) (samples : List (UInt64 × Int64)) : AppendCall :=
  if raw then .intChunkRawOrdered localRef samples else .intChunkOrdered localRef samples

/-- The record methods with their arguments; the labels that may go with them are left out. -/
inductive RecordCall
  | samples (series : SeriesRef) (samples : List (UInt64 × F64)) (raw : Bool)
  | samplesOrdered (series : SeriesRef) (samples : List (UInt64 × F64)) (raw : Bool)
  | samplesI64 (series : SeriesRef) (samples : List (UInt64 × Int64)) (raw : Bool)
  | i64SamplesOrdered (series : SeriesRef) (samples : List (UInt64 × Int64))
  | histogramSamplesOrdered (series : SeriesRef) (samples : List (UInt64 × HistogramValue))
  | exponentialHistogramSamplesOrdered (series : SeriesRef)
      (samples : List (UInt64 × ExponentialHistogramValue))
  | summarySamplesOrdered (series : SeriesRef) (samples : List (UInt64 × SummaryValue))

namespace SegmentWriter
variable (crc32c : Bytes → UInt32) (seriesOrder : ActiveSegment → Option (List Nat))

def recordFloatSamples (series : SeriesRef) (samples : List (UInt64 × F64)) (raw : Bool) :
    Program SegmentWriter IoError Unit :=
  if samples = [] then return ()
  else recordSamplesOrdered crc32c seriesOrder (floatAppend raw) series (sortByKey (·.1) samples)

/-- Integers are cut into windows without the check of their order. -/
def recordSamplesI64WithEncoding (series : SeriesRef) (samples : List (UInt64 × Int64))
    (raw : Bool) : Program SegmentWriter IoError Unit :=
  if samples = [] then return ()
  else recordWindows crc32c seriesOrder (intAppend raw) series (sortByKey (·.1) samples)

def record : RecordCall → Program SegmentWriter IoError Unit
  | .samples series samples raw => recordFloatSamples crc32c seriesOrder series samples raw
  | .samplesOrdered series samples raw =>
    recordSamplesOrdered crc32c seriesOrder (floatAppend raw) series samples
  | .samplesI64 series samples raw =>
    recordSamplesI64WithEncoding crc32c seriesOrder series samples raw
  | .i64SamplesOrdered series samples =>
    recordSamplesOrdered crc32c seriesOrder (intAppend false) series samples
  | .histogramSamplesOrdered series samples =>
    recordSamplesOrdered crc32c seriesOrder AppendCall.histogramChunkOrdered series samples
  | .exponentialHistogramSamplesOrdered series samples =>
    recordSamplesOrdered crc32c seriesOrder AppendCall.exponentialHistogramChunkOrdered series
      samples
  | .summarySamplesOrdered series samples =>
    recordSamplesOrdered crc32c seriesOrder AppendCall.summaryChunkOrdered series samples

def step (self : SegmentWriter) (call : RecordCall) : Except IoError Unit × SegmentWriter :=
  (record crc32c seriesOrder call).exec self

end SegmentWriter

theorem setSeriesRef_encodeChunkRecord (crc32c : Bytes → UInt32) (chunk : DecodedChunkPayload)
    (lane : Bytes) (newRef : UInt32) :
    setSeriesRef (encodeChunkRecord crc32c chunk lane) newRef =
      encodeChunkRecord crc32c { chunk with seriesRef := newRef } lane := by
  have hfront : 4 = ([chunk.kind.toU8, chunk.encoding.toU8] ++ u16ToLe chunk.flags).length := by
    simp
  have hset : ∀ tail : Bytes, overwrite ([chunk.kind.toU8, chunk.encoding.toU8] ++
      u16ToLe chunk.flags ++ (u32ToLe chunk.seriesRef ++ tail)) 4 (u32ToLe newRef) = _ :=
    fun tail => overwrite_append hfront (by simp)
  unfold encodeChunkRecord encodeChunkHeader recordHeader setSeriesRef
  simp only [cons_append, append_assoc]
  exact hset _

structure RecordedChunk (crc32c : Bytes → UInt32) (file : Bytes) (fileId : UInt8)
    (localRef : UInt32) (samples : ChunkSamples) (e : ChunkIndexEntry) : Prop where
  source : SourceFrame crc32c file fileId e
  stored : ∃ encoding body lane,
    (ChunkRecord.ofSamples localRef samples).StoredAs crc32c encoding body lane ∧
      e.bytes file = encodeChunkRecord crc32c
        ((ChunkRecord.ofSamples localRef samples).stored encoding body) lane
  minTimeMs : e.minTimeMs = samples.timestamps.headD 0
  maxTimeMs : e.maxTimeMs = samples.timestamps.getLastD 0

variable {encoding : ChunkEncoding}

section
variable {crc32c : Bytes → UInt32} {file : Bytes} {fileId : UInt8} {localRef : UInt32}
  {samples : ChunkSamples} {e : ChunkIndexEntry}

theorem SourceFrame.start_le (h : SourceFrame crc32c file fileId e) : e.start ≤ file.length := by
  obtain ⟨before, after, hfile, hstart⟩ := h.frame.placed
  rw [hstart, hfile, length_append, length_append, encodeFrame_length]
  omega

section
variable (h : RecordedChunk crc32c file fileId localRef samples e)
include h

theorem RecordedChunk.append
    (tail : Bytes) : RecordedChunk crc32c (file ++ tail) fileId localRef samples e := by
  have hbytes := (h.source.frame.append tail).bytes_eq
  refine ⟨⟨?_, h.source.header_le, h.source.fileId_eq⟩, ?_, h.minTimeMs, h.maxTimeMs⟩
  · rw [hbytes]
    exact h.source.frame.append tail
  · rw [hbytes]
    exact h.stored

theorem RecordedChunk.carries : setSeriesRef (e.bytes file) localRef = e.bytes file := by
  obtain ⟨encoding, body, lane, -, hbytes⟩ := h.stored
  rw [hbytes, setSeriesRef_encodeChunkRecord]
  rfl

theorem RecordedChunk.decode
    (newRef : UInt32) : decodeChunkRecord crc32c (setSeriesRef (e.bytes file) newRef) =
      .ok (ChunkRecord.ofSamples newRef samples) := by
  obtain ⟨encoding, body, lane, hstored, hbytes⟩ := h.stored
  have hnew : (ChunkRecord.ofSamples newRef samples).StoredAs crc32c encoding body lane :=
    ⟨hstored.kind, hstored.range, hstored.points, hstored.encoded, hstored.redundant, hstored.fits⟩
  have hdecode := decodeChunkRecordWithLayout_ok.mpr ⟨encoding, body, lane, hnew, rfl, rfl⟩
  rw [hbytes, setSeriesRef_encodeChunkRecord, decodeChunkRecord]
  change Prod.fst <$> decodeChunkRecordWithLayout crc32c (encodeChunkRecord crc32c
    ((ChunkRecord.ofSamples newRef samples).stored encoding body) lane) = _
  rw [hdecode]
  rfl

end

theorem Appended.recordedChunk {w w' : ChunkWriter}
    (h : Appended crc32c encoding localRef samples w e w') :
    RecordedChunk crc32c w'.file w'.fileId localRef samples e ∧
      e.start = w.file.length + frameHeaderLen ∧
      w'.file.length = w.file.length + e.frameLength ∧ w'.fileId = w.fileId ∧
      ∃ tail, w'.file = w.file ++ tail := by
  obtain ⟨body, lane, -, hstored, hwrote⟩ := h
  set record := encodeChunkRecord crc32c
    ((ChunkRecord.ofSamples localRef samples).stored encoding body) lane with hrecord
  have hbytes : e.bytes w'.file = record := by
    have := hwrote.bytes_eq []
    rwa [append_nil] at this
  have hlength : e.length.toNat = record.length := by
    have hstop := hwrote.stop_eq
    have hstart := hwrote.start_eq
    rw [ChunkIndexEntry.stop, ← hrecord] at hstop
    rw [ChunkIndexEntry.start] at hstart
    omega
  have hheader : chunkHeaderLen ≤ record.length := by
    rw [hrecord, encodeChunkRecord_length]
    omega
  refine ⟨⟨⟨?_, ?_, ?_⟩, ⟨encoding, body, lane, hstored, hbytes⟩, ?_, ?_⟩, hwrote.start_eq, ?_,
    hwrote.fileId, _, hwrote.file⟩
  · rw [hbytes]
    exact ⟨hlength, hwrote.room.1, w.file, [], by rw [append_nil, hwrote.file],
      hwrote.start_eq⟩
  · rwa [hlength]
  · rw [hwrote.entry, hwrote.fileId]
    rfl
  · rw [hwrote.entry]
    rfl
  · rw [hwrote.entry]
    rfl
  · rw [hwrote.file, length_append, encodeFrame_length, ChunkIndexEntry.frameLength, hlength]

end

def chunksOf (series : SeriesRef) (log : List (SeriesRef × ChunkSamples)) : List ChunkSamples :=
  (log.filter (·.1 = series)).map (·.2)

structure ActiveSegment.Holds (crc32c : Bytes → UInt32) (window : UInt64 × UInt64)
    (log : List (SeriesRef × ChunkSamples)) (active : ActiveSegment) : Prop where
  window_eq : (active.startMs, active.endMs) = window
  nodup : active.seriesMap.Nodup
  count : active.chunkEntries.length = active.seriesMap.length
  count_le : active.seriesMap.length ≤ 2 ^ 32
  filled : (active.chunkEntries.flatten.map ChunkIndexEntry.frameLength).sum =
    active.chunks.file.length
  known : ∀ chunk ∈ log, chunk.1 ∈ active.seriesMap
  entries : ∀ localRef series, active.seriesMap[localRef]? = some series →
    ∃ entries, active.chunkEntries[localRef]? = some entries ∧
      List.Forall₂ (RecordedChunk crc32c active.chunks.file active.chunks.fileId
        (UInt32.ofNat localRef)) (chunksOf series log) entries ∧
      entries.Pairwise fun a b => a.start < b.start

theorem sum_modify_append {entries : List (List ChunkIndexEntry)} {i : Nat}
    (h : i < entries.length) (e : ChunkIndexEntry) :
    ((entries.modify i (· ++ [e])).flatten.map ChunkIndexEntry.frameLength).sum =
      (entries.flatten.map ChunkIndexEntry.frameLength).sum + e.frameLength := by
  induction entries generalizing i with
  | nil => cases h
  | cons first rest ih =>
    cases i with
    | zero =>
      simp only [modify_zero_cons, flatten_cons, map_append, sum_append,
        map_cons, map_nil, sum_cons, sum_nil]
      omega
    | succ i =>
      have := ih (Nat.lt_of_succ_lt_succ h)
      simp only [modify_succ_cons, flatten_cons, map_append, sum_append]
      omega

namespace ActiveSegment
variable {crc32c : Bytes → UInt32} {window : UInt64 × UInt64}
  {log : List (SeriesRef × ChunkSamples)} {active : ActiveSegment} {series : SeriesRef}

theorem Holds.addSeries (h : active.Holds crc32c window log) (hnew : series ∉ active.seriesMap)
    (hroom : active.seriesMap.length < 2 ^ 32) :
    { active with seriesMap := active.seriesMap ++ [series],
                  chunkEntries := active.chunkEntries ++ [[]] }.Holds crc32c window log := by
  have hempty : chunksOf series log = [] := by
    rw [chunksOf, filter_eq_nil_iff.mpr, map_nil]
    intro chunk hchunk heq
    exact hnew (of_decide_eq_true heq ▸ h.known chunk hchunk)
  refine ⟨h.window_eq, ?_, ?_, ?_, ?_, ?_, ?_⟩
  · exact nodup_append.mpr ⟨h.nodup, nodup_singleton _, by
      intro a ha b hb heq
      exact hnew (mem_singleton.mp hb ▸ heq ▸ ha)⟩
  · simp [h.count]
  · rw [length_append, length_singleton]
    exact hroom
  · simpa using h.filled
  · intro chunk hchunk
    exact mem_append_left _ (h.known chunk hchunk)
  intro localRef other hother
  change (active.seriesMap ++ [series])[localRef]? = _ at hother
  change ∃ entries, (active.chunkEntries ++ [[]])[localRef]? = _ ∧ _
  rcases Nat.lt_or_ge localRef active.seriesMap.length with hlt | hge
  · rw [getElem?_append_left hlt] at hother
    rw [getElem?_append_left (by rw [h.count]; exact hlt)]
    exact h.entries localRef other hother
  rw [getElem?_append_right hge, getElem?_singleton] at hother
  rw [getElem?_append_right (by rw [h.count]; exact hge), getElem?_singleton,
    h.count]
  split at hother
  · rename_i hzero
    obtain rfl : series = other := Option.some.inj hother
    rw [if_pos hzero, hempty]
    exact ⟨[], rfl, .nil, .nil⟩
  · cases hother

theorem Holds.pushEntry (h : active.Holds crc32c window log) {localRef : Nat}
    (hseries : active.seriesMap[localRef]? = some series)
    {samples : ChunkSamples} {e : ChunkIndexEntry} {chunks : ChunkWriter}
    (happended : Appended crc32c encoding (UInt32.ofNat localRef) samples active.chunks e chunks) :
    (active.pushEntry (UInt32.ofNat localRef) e chunks).Holds crc32c window
      (log ++ [(series, samples)]) := by
  have hlt : localRef < active.seriesMap.length := (List.getElem?_eq_some_iff.mp hseries).1
  have href : (UInt32.ofNat localRef).toNat = localRef :=
    UInt32.toNat_ofNat_of_lt' (Nat.lt_of_lt_of_le hlt h.count_le)
  obtain ⟨hchunk, hstart, hlength, hfileId, tail, htail⟩ := happended.recordedChunk
  have hkept : ∀ {ref : UInt32} {s : ChunkSamples} {e' : ChunkIndexEntry},
      RecordedChunk crc32c active.chunks.file active.chunks.fileId ref s e' →
        RecordedChunk crc32c chunks.file chunks.fileId ref s e' := by
    intro ref s e' he'
    rw [htail, hfileId]
    exact he'.append tail
  refine ⟨h.window_eq, h.nodup, ?_, h.count_le, ?_, ?_, ?_⟩
  · change (active.chunkEntries.modify _ _).length = _
    rw [List.length_modify]
    exact h.count
  · change ((active.chunkEntries.modify (UInt32.ofNat localRef).toNat _).flatten.map _).sum = _
    rw [href, sum_modify_append (by rw [h.count]; exact hlt), h.filled]
    exact hlength.symm
  · exact List.forall_mem_append.mpr
      ⟨h.known, List.forall_mem_singleton.mpr (List.mem_of_getElem? hseries)⟩
  intro ref other hother
  obtain ⟨entries, hentries, hall, hsorted⟩ := h.entries ref other hother
  change ∃ entries, (active.chunkEntries.modify (UInt32.ofNat localRef).toNat _)[ref]? = _ ∧ _
  rw [href, List.getElem?_modify, hentries]
  by_cases heq : localRef = ref
  · subst heq
    obtain rfl : series = other := Option.some.inj (hseries.symm.trans hother)
    have hchunks : chunksOf series (log ++ [(series, samples)]) =
        chunksOf series log ++ [samples] := by
      simp [chunksOf]
    refine ⟨entries ++ [e], by simp, ?_, ?_⟩
    · rw [hchunks]
      exact List.rel_append (hall.imp fun _ _ he' => hkept he') (.cons hchunk .nil)
    rw [List.pairwise_append]
    refine ⟨hsorted, List.pairwise_singleton _ _, fun a ha b hb => ?_⟩
    obtain ⟨s, -, hs⟩ : ∃ s, s ∈ chunksOf series log ∧ RecordedChunk crc32c _ _ _ s a := by
      obtain ⟨i, hi, rfl⟩ := List.mem_iff_getElem.mp ha
      have hi' : i < (chunksOf series log).length := by rwa [hall.length_eq]
      exact ⟨_, List.getElem_mem hi', hall.get hi' hi⟩
    have hle : a.start ≤ active.chunks.file.length := hs.source.start_le
    have hpos : 0 < frameHeaderLen := by decide
    rw [List.mem_singleton.mp hb, hstart]
    omega
  have hne : other ≠ series := by
    rintro rfl
    exact heq ((List.getElem?_inj hlt h.nodup).mp (hseries.trans hother.symm))
  have hchunks : chunksOf other (log ++ [(series, samples)]) = chunksOf other log := by
    simp [chunksOf, List.filter_append, Ne.symm hne]
  refine ⟨entries, by simp [heq], ?_, hsorted⟩
  rw [hchunks]
  exact hall.imp fun _ _ he' => hkept he'

theorem ensureLocalSeries_spec : Triple (Holds crc32c window log) (ensureLocalSeries series)
    (fun localRef active => active.Holds crc32c window log ∧
      ∃ i, localRef = UInt32.ofNat i ∧ active.seriesMap[i]? = some series)
    (fun _ active => active.Holds crc32c window log) := by
  unfold ensureLocalSeries
  refine read fun active h => ?_
  cases hidx : active.seriesMap.idxOf? series with
  | some localRef =>
    obtain ⟨hlt, hget, -⟩ := List.idxOf?_eq_some_iff.mp hidx
    rintro _ rfl
    exact ⟨h, localRef, rfl, List.getElem?_eq_some_iff.mpr ⟨hlt, hget⟩⟩
  | none =>
    have hnew := List.idxOf?_eq_none_iff.mp hidx
    refine seq ((lift _).mono_error fun _ a ha => ?_) fun _ => given fun hroom => ?_
    · rw [ha.2]
      exact h
    refine seq (Q := fun _ a => a = { active with
      seriesMap := active.seriesMap ++ [series], chunkEntries := active.chunkEntries ++ [[]] })
      ?_ fun _ => ?_
    · rintro a rfl
      exact rfl
    · rintro _ rfl
      exact ⟨h.addSeries hnew (require_ok.mp hroom), active.seriesMap.length, rfl, by simp⟩

theorem recordRun_spec {append : UInt32 → AppendCall}
    {samples : ChunkSamples} (hcontents : ∀ ref, (append ref).contents = (ref, encoding, samples))
    (hordered : samples.timestamps.Pairwise (· ≤ ·)) :
    Triple (Holds crc32c window log) (recordRun crc32c series append)
      (fun _ active => active.Holds crc32c window (log ++ [(series, samples)]))
      (fun _ active => active.Holds crc32c window log) := by
  unfold recordRun
  refine seq ensureLocalSeries_spec fun localRef => read fun active h => ?_
  obtain ⟨h, i, rfl, hseries⟩ := h
  refine seq ((lift _).mono_error fun _ a ha => ?_) fun result =>
    given fun hrun => ?_
  · rw [ha.2]
    exact h
  rintro a rfl
  have hcall : (append (UInt32.ofNat i)).Ordered := by
    rw [AppendCall.Ordered, AppendCall.samples, hcontents]
    exact hordered
  have happended := (AppendCall.run_ok hcall).mp hrun
  rw [AppendCall.encoding, AppendCall.seriesRef, AppendCall.samples, hcontents] at happended
  exact h.pushEntry hseries happended

end ActiveSegment

theorem windowRunsFrom_single {V : Type} {durationMs startMs : UInt64} {run rest : List (UInt64 × V)}
    (h : ∀ sample ∈ rest, (segmentWindow sample.1 durationMs).1 = startMs) :
    windowRunsFrom durationMs startMs run rest = [run ++ rest] := by
  induction rest generalizing run with
  | nil => rw [windowRunsFrom, append_nil]
  | cons sample rest ih =>
    obtain ⟨hsample, hrest⟩ := forall_mem_cons.mp h
    rw [windowRunsFrom, if_pos hsample, ih hrest, append_assoc, singleton_append]

theorem windowRuns_single {V : Type} {durationMs : UInt64} {window : UInt64 × UInt64}
    {samples : List (UInt64 × V)} (hne : samples ≠ [])
    (h : ∀ sample ∈ samples, segmentWindow sample.1 durationMs = window) :
    windowRuns durationMs samples = [samples] := by
  obtain ⟨sample, rest, rfl⟩ := exists_cons_of_ne_nil hne
  obtain ⟨hsample, hrest⟩ := forall_mem_cons.mp h
  refine windowRunsFrom_single fun other hother => ?_
  rw [hrest other hother, hsample]

/-- A writer that records the segment of one window, behind the segments it has sealed. -/
structure SegmentWriter.Writing (crc32c : Bytes → UInt32) (durationMs : Nat)
    (window : UInt64 × UInt64) (segments : List SealedChunks)
    (log : List (SeriesRef × ChunkSamples)) (w : SegmentWriter) : Prop where
  duration : w.segmentDurationMs = durationMs
  segments_eq : w.segments = segments
  holds : ∀ active, w.active = some active → active.Holds crc32c window log
  idle : w.active = none → log = []

namespace SegmentWriter
variable {crc32c : Bytes → UInt32} {seriesOrder : ActiveSegment → Option (List Nat)}
  {durationMs : Nat} {window : UInt64 × UInt64} {segments : List SealedChunks}
  {log : List (SeriesRef × ChunkSamples)} {series : SeriesRef}

theorem ensureActiveWindow_spec : Triple (Writing crc32c durationMs window segments log)
    (ensureActiveWindow crc32c seriesOrder window)
    (fun _ self => self.Writing crc32c durationMs window segments log ∧ self.active ≠ none)
    (fun _ => Writing crc32c durationMs window segments log) := by
  rintro self h
  obtain ⟨duration, lane, active, sealed⟩ := self
  cases active with
  | some active =>
    have hexec : (ensureActiveWindow crc32c seriesOrder window).exec
        ⟨duration, lane, some active, sealed⟩ = (.ok (), ⟨duration, lane, some active, sealed⟩) := by
      have hany : ((some active).any fun active => (active.startMs, active.endMs) = window) := by
        simpa using (h.holds active rfl).window_eq
      unfold ensureActiveWindow
      rw [Program.exec_bind_ok (Program.exec_get _), if_pos hany]
      rfl
    rw [hexec]
    exact ⟨h, by simp⟩
  | none =>
    obtain rfl := h.idle rfl
    have hnew : ∀ chunks : ChunkWriter, chunks.file = [] →
        (⟨window.1, window.2, [], [], chunks⟩ : ActiveSegment).Holds crc32c window [] := by
      intro chunks hfile
      refine ⟨rfl, nodup_nil, rfl, Nat.zero_le _, by simp [hfile], ?_, ?_⟩
      · intro chunk hchunk
        cases hchunk
      · intro localRef series hseries
        cases hseries
    cases lane <;> exact ⟨⟨h.duration, h.segments_eq, fun active hactive =>
      Option.some.inj hactive ▸ hnew _ rfl, fun hnone => by cases hnone⟩, by simp⟩

theorem onActive_spec {m : Program ActiveSegment IoError Unit}
    {log' : List (SeriesRef × ChunkSamples)}
    (h : Triple (ActiveSegment.Holds crc32c window log) m
      (fun _ active => active.Holds crc32c window log')
      (fun _ active => active.Holds crc32c window log)) :
    Triple (fun self => self.Writing crc32c durationMs window segments log ∧ self.active ≠ none)
      (onActive m) (fun _ => Writing crc32c durationMs window segments log')
      (fun _ => Writing crc32c durationMs window segments log) := by
  refine read fun self ⟨hself, hsome⟩ => ?_
  obtain ⟨active, hactive⟩ := Option.ne_none_iff_exists'.mp hsome
  rw [hactive]
  refine zoom fun self' hself' => ?_
  subst hself'
  have hput : ∀ {active' log'}, active'.Holds crc32c window log' →
      Writing crc32c durationMs window segments log' { self' with active := some active' } :=
    fun hactive' => ⟨hself.duration, hself.segments_eq,
      fun _ heq => Option.some.inj heq ▸ hactive', fun hnone => by cases hnone⟩
  refine h.conseq (fun a ha => ?_) (fun _ _ hQ => hput hQ) (fun _ _ hE => hput hE)
  rw [ha, hactive]
  exact hself.holds active hactive

theorem recordWindows_spec {V : Type} {append : UInt32 → List (UInt64 × V) → AppendCall}
    {chunk : ChunkSamples} {samples : List (UInt64 × V)}
    (hcontents : ∀ ref, (append ref samples).contents = (ref, encoding, chunk))
    (htimes : chunk.timestamps = samples.map (·.1)) (hne : samples ≠ [])
    (hordered : chunk.timestamps.Pairwise (· ≤ ·))
    (hwindow : ∀ t ∈ chunk.timestamps, segmentWindow t (UInt64.ofNat durationMs) = window) :
    Triple (Writing crc32c durationMs window segments log)
      (recordWindows crc32c seriesOrder append series samples)
      (fun _ => Writing crc32c durationMs window segments (log ++ [(series, chunk)]))
      (fun _ => Writing crc32c durationMs window segments log) := by
  rw [htimes] at hwindow
  have hmem : ∀ sample ∈ samples, segmentWindow sample.1 (UInt64.ofNat durationMs) = window :=
    fun sample hsample => hwindow _ (mem_map_of_mem hsample)
  have hduration : Triple (Writing crc32c durationMs window segments log) checkedDurationMs
      (fun d self => d = UInt64.ofNat durationMs ∧
        self.Writing crc32c durationMs window segments log)
      (fun _ => Writing crc32c durationMs window segments log) := by
    refine read fun self hself => ?_
    refine seq ((lift _).mono_error fun _ a ha => ha.2 ▸ hself) fun _ =>
      given fun _ => seq ((lift _).mono_error fun _ a ha => ha.2 ▸ hself)
        fun _ => given fun _ => ?_
    rintro _ rfl
    exact ⟨by rw [hself.duration], hself⟩
  refine seq hduration fun d => given fun hd => ?_
  subst hd
  have hhead : segmentWindow ((samples.map (·.1)).headD 0) (UInt64.ofNat durationMs) = window := by
    obtain ⟨sample, rest, rfl⟩ := exists_cons_of_ne_nil hne
    exact hmem sample (mem_cons_self ..)
  rw [windowRuns_single hne hmem]
  refine seq (seq ?_ fun _ => onActive_spec
    (ActiveSegment.recordRun_spec hcontents hordered)) fun _ _ h => h
  rw [hhead]
  exact ensureActiveWindow_spec

theorem recordSamplesOrdered_spec {V : Type} {append : UInt32 → List (UInt64 × V) → AppendCall}
    {chunk : ChunkSamples} {samples : List (UInt64 × V)}
    (hcontents : ∀ ref, (append ref samples).contents = (ref, encoding, chunk))
    (htimes : chunk.timestamps = samples.map (·.1))
    (hwindow : ∀ t ∈ chunk.timestamps, segmentWindow t (UInt64.ofNat durationMs) = window) :
    Triple (Writing crc32c durationMs window segments log)
      (recordSamplesOrdered crc32c seriesOrder append series samples)
      (fun _ => Writing crc32c durationMs window segments
        (log ++ if chunk.timestamps = [] then [] else [(series, chunk)]))
      (fun _ => Writing crc32c durationMs window segments log) := by
  have hnil : chunk.timestamps = [] ↔ samples = [] := by rw [htimes, map_eq_nil_iff]
  refine ite (fun hempty => ?_) fun hne => ?_
  · rw [if_pos (hnil.mpr hempty), append_nil]
    exact fun _ h => h
  rw [if_neg (hnil.not.mpr hne)]
  refine seq ((lift _).mono_error fun _ _ hE => hE.2) fun _ =>
    given fun horder => recordWindows_spec hcontents htimes hne ?_ hwindow
  rw [htimes, ← outOfOrder_eq_false]
  simpa using require_ok.mp horder

end SegmentWriter

namespace RecordCall

def chunk : RecordCall → SeriesRef × ChunkSamples
  | .samples series l _ => (series, .float (sortByKey (·.1) l))
  | .samplesOrdered series l _ => (series, .float l)
  | .samplesI64 series l _ => (series, .int64 (sortByKey (·.1) l))
  | .i64SamplesOrdered series l => (series, .int64 l)
  | .histogramSamplesOrdered series l => (series, .histogram l)
  | .exponentialHistogramSamplesOrdered series l => (series, .exponentialHistogram l)
  | .summarySamplesOrdered series l => (series, .summary l)

def chunks (call : RecordCall) : List (SeriesRef × ChunkSamples) :=
  if call.chunk.2.timestamps = [] then [] else [call.chunk]

def InWindow (durationMs : Nat) (window : UInt64 × UInt64) (call : RecordCall) : Prop :=
  ∀ t ∈ call.chunk.2.timestamps, segmentWindow t (UInt64.ofNat durationMs) = window

end RecordCall

namespace SegmentWriter
variable {crc32c : Bytes → UInt32} {seriesOrder : ActiveSegment → Option (List Nat)}
  {durationMs : Nat} {window : UInt64 × UInt64} {segments : List SealedChunks}
  {log : List (SeriesRef × ChunkSamples)}

theorem record_spec {call : RecordCall} (h : call.InWindow durationMs window) :
    Triple (Writing crc32c durationMs window segments log) (record crc32c seriesOrder call)
      (fun _ => Writing crc32c durationMs window segments (log ++ call.chunks))
      (fun _ => Writing crc32c durationMs window segments log) := by
  cases call with
  | samples series samples raw =>
    refine ite (fun hempty => ?_) fun _ => ?_
    · have hchunks : (RecordCall.samples series samples raw).chunks = [] := by
        rw [hempty]
        exact if_pos (by simp [RecordCall.chunk, ChunkSamples.timestamps])
      rw [hchunks, append_nil]
      exact fun _ h => h
    · cases raw <;> exact recordSamplesOrdered_spec (fun _ => rfl) rfl h
  | samplesOrdered series samples raw =>
    cases raw <;> exact recordSamplesOrdered_spec (fun _ => rfl) rfl h
  | samplesI64 series samples raw =>
    have hnil : (RecordCall.samplesI64 series samples raw).chunk.2.timestamps = [] ↔
        samples = [] := by
      change (sortByKey (·.1) samples).map (·.1) = [] ↔ _
      rw [map_eq_nil_iff, ← length_eq_zero_iff, (sortByKey_perm samples).length_eq,
        length_eq_zero_iff]
    refine ite (fun hempty => ?_) fun hne => ?_
    · rw [RecordCall.chunks, if_pos (hnil.mpr hempty), append_nil]
      exact fun _ h => h
    have hsorted : ((sortByKey (·.1) samples).map (·.1)).Pairwise (· ≤ ·) :=
      pairwise_map.mpr (sortByKey_sorted samples)
    have hne' : sortByKey (·.1) samples ≠ [] :=
      fun heq => hnil.not.mpr hne (map_eq_nil_iff.mpr heq)
    rw [RecordCall.chunks, if_neg (hnil.not.mpr hne)]
    cases raw <;> exact recordWindows_spec (fun _ => rfl) rfl hne' hsorted h
  | i64SamplesOrdered | histogramSamplesOrdered | exponentialHistogramSamplesOrdered
  | summarySamplesOrdered => exact recordSamplesOrdered_spec (fun _ => rfl) rfl h

def accepted (events : List (RecordCall × Except IoError Unit)) :
    List (SeriesRef × ChunkSamples) :=
  events.flatMap fun event => if event.2 = .ok () then event.1.chunks else []

theorem writing_start {w : SegmentWriter} (h : w.active = none) :
    Writing crc32c w.segmentDurationMs window w.segments [] w :=
  ⟨rfl, rfl, fun active hactive => by simp [h] at hactive, fun _ => rfl⟩

theorem Writing.run {w : SegmentWriter} (hw : w.Writing crc32c durationMs window segments log)
    {calls : List RecordCall} (h : ∀ call ∈ calls, call.InWindow durationMs window) :
    Writing crc32c durationMs window segments
      (log ++ accepted (Machine.events (step crc32c seriesOrder) w calls))
      (Machine.run (step crc32c seriesOrder) w calls) := by
  induction calls generalizing w log with
  | nil => rwa [Machine.events, accepted, flatMap_nil, append_nil]
  | cons call calls ih =>
    obtain ⟨hcall, hcalls⟩ := forall_mem_cons.mp h
    have hstep : Writing crc32c durationMs window segments
        (log ++ if (step crc32c seriesOrder w call).1 = .ok () then call.chunks else [])
        (step crc32c seriesOrder w call).2 := by
      have hspec : Post _ _ (step crc32c seriesOrder w call) := record_spec hcall w hw
      revert hspec
      rcases step crc32c seriesOrder w call with ⟨e | a, s⟩ <;> intro hspec
      · rw [if_neg (by simp), append_nil]
        exact hspec
      · rw [if_pos rfl]
        exact hspec
    have hrest := ih hstep hcalls
    rw [append_assoc] at hrest
    exact hrest

end SegmentWriter

end Chronoxide
