import Chronoxide.Chunk.Record
import Mathlib.Data.List.Sort

/-! The chunk writer (`chunk/writer.rs`): what each append puts into the file, and that a file
written by appends is read back record by record. -/

namespace Chronoxide
open Codec ChunkSamples List

/-- An open chunk file. `offset` starts as the length of the file and is kept at it. -/
structure ChunkWriter where
  file : Bytes
  offset : UInt64
  fileId : UInt8
  offset_eq : offset.toNat = file.length

variable {w w' : ChunkWriter}

@[ext] theorem ChunkWriter.ext (hfile : w.file = w'.file)
    (hid : w.fileId = w'.fileId) : w = w' := by
  obtain ⟨file, offset, fileId, h⟩ := w
  obtain ⟨file', offset', fileId', h'⟩ := w'
  obtain rfl : file = file' := hfile
  obtain rfl : fileId = fileId' := hid
  obtain rfl : offset = offset' := UInt64.toNat_inj.mp (h.trans h'.symm)
  rfl

def checkedU32Len (len : Nat) (field : String) : Except IoError UInt32 :=
  if len < 2 ^ 32 then .ok (UInt32.ofNat len)
  else .error (invalidInput (field ++ " exceeds the u32 on-disk limit"))

theorem checkedU32Len_ok {len : Nat} {field : String} {x : UInt32} :
    checkedU32Len len field = .ok x ↔ len < 2 ^ 32 ∧ UInt32.ofNat len = x := by
  unfold checkedU32Len
  split <;> simp_all

def checkedChunkPointCount (len : Nat) : Except IoError UInt32 :=
  checkedU32Len len "chunk sample count"

def encodeFrameHeader (frameLen frameCrc : UInt32) : Bytes :=
  u32ToLe frameLen ++ (u32ToLe frameCrc ++ (u16ToLe 0 ++ u32ToLe 1))

theorem encodeFrameHeader_length (frameLen frameCrc : UInt32) :
    (encodeFrameHeader frameLen frameCrc).length = frameHeaderLen := by
  simp [encodeFrameHeader, frameHeaderLen]

namespace ChunkWriter

def new (file : Bytes) (hfile : file.length < 2 ^ 64) (fileId : UInt8) :
    Except IoError ChunkWriter :=
  if fileId > 1 then .error (invalidInput "chunk file ID must be 0 or 1")
  else .ok ⟨file, UInt64.ofNat file.length, fileId, UInt64.toNat_ofNat_of_lt' hfile⟩

def writeFrame (self : ChunkWriter) (frame : Bytes) : Except IoError ChunkWriter :=
  if h : self.offset.toNat + frame.length < 2 ^ 64 then
    .ok { self with
      file := self.file ++ frame
      offset := UInt64.ofNat (self.offset.toNat + frame.length)
      offset_eq := by
        rw [UInt64.toNat_ofNat_of_lt' h, self.offset_eq, List.length_append] }
  else .error (invalidInput "chunk file length overflows")

/-- `append_chunk_payload_with_scalar_lane`; `chunk` holds its header arguments and payload. -/
def appendChunkPayloadWithScalarLane (self : ChunkWriter) (crc32c : Bytes → UInt32)
    (chunk : DecodedChunkPayload) (scalarLane : Option Bytes) :
    Except IoError (ChunkIndexEntry × ChunkWriter) := do
  let _payloadLen ← checkedU32Len chunk.payload.length "chunk payload length"
  let lane := scalarLane.getD []
  let scalarLaneLen ← checkedU32Len lane.length "scalar lane length"
  require (chunkHeaderLen + lane.length < 2 ^ 64) (invalidInput "chunk header length overflows")
  let _headerLen ← checkedU32Len (chunkHeaderLen + lane.length) "chunk header length"
  let fixedHeaderLen ← checkedU32Len chunkHeaderLen "fixed chunk header length"
  let scalarLaneOffset := if lane.length = 0 then 0 else fixedHeaderLen
  let chunkHeader := encodeChunkHeader (recordHeader crc32c chunk lane)
  require (chunkHeader.length + lane.length + chunk.payload.length < 2 ^ 64)
    (invalidInput "chunk frame body length overflows")
  let frameCrcBuf := chunkHeader ++ (lane ++ chunk.payload)
  require (frameHeaderLen + frameCrcBuf.length < 2 ^ 64)
    (invalidInput "chunk frame length overflows")
  let frameLen ← checkedU32Len (frameHeaderLen + frameCrcBuf.length) "chunk frame length"
  require (self.offset.toNat + frameHeaderLen < 2 ^ 64)
    (invalidInput "chunk file offset overflows")
  require (chunkHeaderLen + lane.length + chunk.payload.length < 2 ^ 64)
    (invalidInput "chunk record length overflows")
  let chunkLength ← checkedU32Len (chunkHeaderLen + lane.length + chunk.payload.length)
    "chunk record length"
  let writer ← self.writeFrame
    (encodeFrameHeader frameLen (crc32c frameCrcBuf) ++ (chunkHeader ++ (lane ++ chunk.payload)))
  return ({ fileId := self.fileId, kind := chunk.kind, flags := chunk.flags,
            minTimeMs := chunk.minTimeMs, maxTimeMs := chunk.maxTimeMs,
            offset := UInt64.ofNat (self.offset.toNat + frameHeaderLen), length := chunkLength,
            scalarLaneOffset, scalarLaneLen }, writer)

end ChunkWriter

def encodeFrame (crc32c : Bytes → UInt32) (record : Bytes) : Bytes :=
  encodeFrameHeader (UInt32.ofNat (frameHeaderLen + record.length)) (crc32c record) ++ record

theorem encodeFrame_length (crc32c : Bytes → UInt32) (record : Bytes) :
    (encodeFrame crc32c record).length = frameHeaderLen + record.length := by
  rw [encodeFrame, length_append, encodeFrameHeader_length]

namespace ChunkWriter
variable {crc32c : Bytes → UInt32} {w w' : ChunkWriter} {chunk : DecodedChunkPayload}
  {e : ChunkIndexEntry}

/-- Room for a record of that length: the frame length is a `u32`, the file length a `u64`. -/
def Room (w : ChunkWriter) (recordLen : Nat) : Prop :=
  frameHeaderLen + recordLen < 2 ^ 32 ∧ w.file.length + (frameHeaderLen + recordLen) < 2 ^ 64

def entry (w : ChunkWriter) (chunk : DecodedChunkPayload) (lane : Bytes) : ChunkIndexEntry :=
  { fileId := w.fileId, kind := chunk.kind, flags := chunk.flags, minTimeMs := chunk.minTimeMs,
    maxTimeMs := chunk.maxTimeMs, offset := UInt64.ofNat (w.file.length + frameHeaderLen),
    length := UInt32.ofNat (chunkHeaderLen + lane.length + chunk.payload.length),
    scalarLaneOffset := if lane.length = 0 then 0 else UInt32.ofNat chunkHeaderLen,
    scalarLaneLen := UInt32.ofNat lane.length }

structure Wrote (crc32c : Bytes → UInt32) (w : ChunkWriter) (chunk : DecodedChunkPayload)
    (lane : Bytes) (e : ChunkIndexEntry) (w' : ChunkWriter) : Prop where
  room : w.Room (encodeChunkRecord crc32c chunk lane).length
  entry : e = w.entry chunk lane
  file : w'.file = w.file ++ encodeFrame crc32c (encodeChunkRecord crc32c chunk lane)
  fileId : w'.fileId = w.fileId

theorem Wrote.fits {lane : Bytes} (h : Wrote crc32c w chunk lane e w') : RecordFits chunk lane := by
  have hroom := h.room.1
  rw [encodeChunkRecord_length] at hroom
  exact ⟨by omega, by omega⟩

theorem writeFrame_ok {frame : Bytes} :
    w.writeFrame frame = .ok w' ↔ w.file.length + frame.length < 2 ^ 64 ∧
      w'.file = w.file ++ frame ∧ w'.fileId = w.fileId := by
  rw [← w.offset_eq, writeFrame]
  split
  · rename_i h
    simp only [h, true_and, Except.ok.injEq]
    constructor
    · rintro rfl
      exact ⟨rfl, rfl⟩
    · rintro ⟨hfile, hid⟩
      exact ChunkWriter.ext hfile.symm hid.symm
  · rename_i h
    simp only [h, false_and, reduceCtorEq]

theorem appendChunkPayloadWithScalarLane_ok {scalarLane : Option Bytes} :
    w.appendChunkPayloadWithScalarLane crc32c chunk scalarLane = .ok (e, w') ↔
      Wrote crc32c w chunk (scalarLane.getD []) e w' := by
  simp only [appendChunkPayloadWithScalarLane, except_bind_ok, checkedU32Len_ok, require_ok,
    exists_const, except_pure_ok, writeFrame_ok, w.offset_eq, Prod.mk.injEq,
    encodeChunkHeader_length]
  generalize scalarLane.getD [] = lane
  have hlen : (encodeChunkRecord crc32c chunk lane).length =
      chunkHeaderLen + lane.length + chunk.payload.length := encodeChunkRecord_length
  have hrecord : encodeChunkHeader (recordHeader crc32c chunk lane) ++ (lane ++ chunk.payload) =
      encodeChunkRecord crc32c chunk lane := rfl
  have hframe := encodeFrame_length crc32c (encodeChunkRecord crc32c chunk lane)
  rw [hrecord]
  constructor
  · rintro ⟨_, -, laneLen, ⟨-, rfl⟩, -, _, -, fixed, ⟨-, rfl⟩, -, -, frameLen, ⟨hshort, rfl⟩, -, -, length,
      ⟨-, rfl⟩, writer, ⟨hroom, hfile, hid⟩, rfl, rfl⟩
    refine ⟨⟨hshort, ?_⟩, rfl, hfile, hid⟩
    rwa [← hframe]
  rintro ⟨⟨hshort, hroom⟩, rfl, hfile, hid⟩
  refine ⟨_, ⟨by omega, rfl⟩, _, ⟨by omega, rfl⟩, by omega, _, ⟨by omega, rfl⟩, _, ⟨by decide, rfl⟩,
    by omega, by omega, _, ⟨by omega, rfl⟩, by omega, by omega, _, ⟨by omega, rfl⟩, w',
    ⟨?_, hfile, hid⟩, rfl, rfl⟩
  change w.file.length + (encodeFrame crc32c _).length < 2 ^ 64
  omega

end ChunkWriter

namespace ChunkWriter

/-- What the ordered appends share. `unwrap` comes after the check that there is a sample. -/
def appendOrdered {V : Type} (self : ChunkWriter) (crc32c : Bytes → UInt32) (kind : ChunkKind)
    (encoding : ChunkEncoding) (flags : UInt16)
    (encode : UInt64 → List (UInt64 × V) → Except IoError Bytes)
    (lane : UInt64 → List (UInt64 × V) → Except IoError (Option Bytes)) (seriesRef : UInt32)
    (samples : List (UInt64 × V)) : Except IoError (ChunkIndexEntry × ChunkWriter) := do
  validateOrderedSamples samples
  let numPoints ← checkedChunkPointCount samples.length
  let minTimeMs := (samples.map (·.1)).headD 0
  let maxTimeMs := (samples.map (·.1)).getLastD 0
  let body ← encode minTimeMs samples
  let scalarLane ← lane minTimeMs samples
  self.appendChunkPayloadWithScalarLane crc32c
    { kind, encoding, flags, seriesRef, minTimeMs, maxTimeMs, numPoints,
      payload := u64ToLe minTimeMs ++ body } scalarLane

def noLane {V : Type} (_t0Ms : UInt64) (_samples : List (UInt64 × V)) :
    Except IoError (Option Bytes) := .ok none

section Methods
variable (self : ChunkWriter) (crc32c : Bytes → UInt32) (seriesRef : UInt32)

def appendFloatChunkOrdered (samples : List (UInt64 × F64)) :=
  self.appendOrdered crc32c .float .gorilla 0 (encodeSplitBody encodeGorillaValues) noLane
    seriesRef samples

def appendFloatChunkRawOrdered (samples : List (UInt64 × F64)) :=
  self.appendOrdered crc32c .float .rawF64 0 (fun t0 s => .ok (encodeRawBody encodeF64 t0 s))
    noLane seriesRef samples

variable (samples : List (UInt64 × Int64))

def appendIntChunkOrdered :=
  self.appendOrdered crc32c .int64 .intDeltaZigZag 0
    (encodeSplitBody fun v => .ok (encodeIntDeltas 0 v)) noLane seriesRef samples

def appendIntChunkRawOrdered :=
  self.appendOrdered crc32c .int64 .rawI64 0 (fun t0 s => .ok (encodeRawBody i64ToLe t0 s))
    noLane seriesRef samples

def appendSchemaVarlenChunkOrdered {T : Type} [SchemaVarLenEncoding T] [TypedCounterValue T]
    (kind : ChunkKind) (samples : List (UInt64 × T)) (flags : UInt16) :=
  self.appendOrdered crc32c kind .schemaVarLen flags (encodeSplitBody encodeSchemaValues)
    (fun t0 s => some <$> encodeTypedScalarLane crc32c t0 s) seriesRef samples

def sampleFlags {T : Type} [TypedCounterValue T] (samples : List (UInt64 × T)) : UInt16 :=
  typedChunkFlags (samples.map (TypedCounterValue.metadata ·.2))

def appendHistogramChunkOrdered (samples : List (UInt64 × HistogramValue)) :=
  self.appendSchemaVarlenChunkOrdered crc32c seriesRef .histogram samples (sampleFlags samples)

def appendExponentialHistogramChunkOrdered
    (samples : List (UInt64 × ExponentialHistogramValue)) :=
  self.appendSchemaVarlenChunkOrdered crc32c seriesRef .exponentialHistogram samples
    (sampleFlags samples)

def appendSummaryChunkOrdered (samples : List (UInt64 × SummaryValue)) :=
  self.appendSchemaVarlenChunkOrdered crc32c seriesRef .summary samples (sampleFlags samples)

end Methods

end ChunkWriter

namespace ChunkRecord

def ofSamples (seriesRef : UInt32) (samples : ChunkSamples) : ChunkRecord :=
  { seriesRef, kind := samples.kind, minTimeMs := samples.timestamps.headD 0,
    maxTimeMs := samples.timestamps.getLastD 0, samples }

end ChunkRecord

variable (crc32c : Bytes → UInt32)

def writtenLane (t0Ms : UInt64) (samples : ChunkSamples) : Option Bytes :=
  samples.laneRows.map fun rows => encodeLane crc32c (encodeLaneBody t0Ms rows)

def LaneShort (t0Ms : UInt64) (samples : ChunkSamples) : Prop :=
  ∀ rows, samples.laneRows = some rows → (encodeLaneBody t0Ms rows).length < 2 ^ 32

def Appended (encoding : ChunkEncoding) (seriesRef : UInt32) (samples : ChunkSamples)
    (w : ChunkWriter) (e : ChunkIndexEntry) (w' : ChunkWriter) : Prop :=
  ∃ body lane, lane = (writtenLane crc32c (samples.timestamps.headD 0) samples).getD [] ∧
    (ChunkRecord.ofSamples seriesRef samples).StoredAs crc32c encoding body lane ∧
    w.Wrote crc32c ((ChunkRecord.ofSamples seriesRef samples).stored encoding body) lane e w'

theorem encodeLane_ne_nil (body : Bytes) : encodeLane crc32c body ≠ [] := by
  intro h
  have hlen := congrArg length h
  simp only [encodeLane, length_append, u32ToLe_length, length_nil] at hlen
  omega

variable {crc32c : Bytes → UInt32}

theorem laneFor_writtenLane {t0 : UInt64} {samples : ChunkSamples} :
    LaneFor crc32c t0 samples ((writtenLane crc32c t0 samples).getD []) ↔ LaneShort t0 samples := by
  unfold LaneFor LaneShort writtenLane
  cases samples.laneRows with
  | none => simp
  | some rows =>
    simp [encodeLane_ne_nil]

theorem timeRange_headD_getLastD {ts : List UInt64} :
    TimeRange (ts.headD 0) (ts.getLastD 0) ts ↔ ts ≠ [] ∧ ts.Pairwise (· ≤ ·) := by
  constructor
  · exact fun h => ⟨h.ne_nil, h.ordered⟩
  rintro ⟨hne, hordered⟩
  obtain ⟨t, ts, rfl⟩ := exists_cons_of_ne_nil hne
  refine ⟨rfl, ?_, hordered⟩
  rw [getLastD_cons, getLast?_cons, getLastD_eq_getLast?]

namespace ChunkWriter
variable {crc32c : Bytes → UInt32} {w w' : ChunkWriter} {e : ChunkIndexEntry}
  {seriesRef : UInt32}

theorem appendOrdered_ok {V : Type} (wrap : List (UInt64 × V) → ChunkSamples)
    {kind : ChunkKind} {encoding : ChunkEncoding} {flags : UInt16}
    {encode : UInt64 → List (UInt64 × V) → Except IoError Bytes}
    {lane : UInt64 → List (UInt64 × V) → Except IoError (Option Bytes)}
    {samples : List (UInt64 × V)} (hkind : (wrap samples).kind = kind)
    (htimes : (wrap samples).timestamps = samples.map (·.1))
    (hflags : (wrap samples).flags = flags)
    (hencode : ∀ t0, encodeBody encoding t0 (wrap samples) = encode t0 samples)
    (hlane : ∀ {t0 o}, lane t0 samples = .ok o ↔
      LaneShort t0 (wrap samples) ∧ o = writtenLane crc32c t0 (wrap samples)) :
    w.appendOrdered crc32c kind encoding flags encode lane seriesRef samples = .ok (e, w') ↔
      Appended crc32c encoding seriesRef (wrap samples) w e w' := by
  have hstored : ∀ body, (ChunkRecord.ofSamples seriesRef (wrap samples)).stored encoding body =
      { kind, encoding, flags, seriesRef, minTimeMs := (samples.map (·.1)).headD 0,
        maxTimeMs := (samples.map (·.1)).getLastD 0, numPoints := UInt32.ofNat samples.length,
        payload := u64ToLe ((samples.map (·.1)).headD 0) ++ body } := fun body => by
    simp [ChunkRecord.stored, ChunkRecord.ofSamples, hkind, hflags, htimes]
  simp only [appendOrdered, except_bind_ok, validateOrderedSamples_ok, exists_const,
    checkedChunkPointCount, checkedU32Len_ok, appendChunkPayloadWithScalarLane_ok, hlane,
    Appended, htimes]
  constructor
  · rintro ⟨⟨hne, hordered⟩, _, ⟨hpoints, rfl⟩, body, hbody, _, ⟨hshort, rfl⟩, hwrote⟩
    rw [← hstored] at hwrote
    refine ⟨body, _, rfl, ⟨rfl, ?_, ?_, ?_, ?_, hwrote.fits⟩, hwrote⟩
    · exact timeRange_headD_getLastD.mpr (by rw [htimes]; exact ⟨by simpa using hne, hordered⟩)
    · change (wrap samples).timestamps.length < 2 ^ 32
      rwa [htimes, length_map]
    · change encodeBody encoding ((wrap samples).timestamps.headD 0) (wrap samples) = .ok body
      rw [hencode, htimes, hbody]
    · change LaneFor crc32c ((wrap samples).timestamps.headD 0) (wrap samples) _
      rw [htimes]
      exact laneFor_writtenLane.mpr hshort
  rintro ⟨body, lane, rfl, ⟨-, hrange, hpoints, hbody, hredundant, -⟩, hwrote⟩
  change TimeRange ((wrap samples).timestamps.headD 0) ((wrap samples).timestamps.getLastD 0)
    (wrap samples).timestamps at hrange
  change (wrap samples).timestamps.length < 2 ^ 32 at hpoints
  change encodeBody encoding ((wrap samples).timestamps.headD 0) (wrap samples) = .ok body
    at hbody
  change LaneFor crc32c ((wrap samples).timestamps.headD 0) (wrap samples) _ at hredundant
  rw [htimes] at hrange hpoints hbody hredundant
  rw [length_map] at hpoints
  rw [hencode] at hbody
  rw [hstored] at hwrote
  obtain ⟨hne, hordered⟩ := timeRange_headD_getLastD.mp hrange
  exact ⟨⟨by simpa using hne, hordered⟩, _, ⟨hpoints, rfl⟩, body, hbody, _,
    ⟨laneFor_writtenLane.mp hredundant, rfl⟩, hwrote⟩

theorem noLane_ok {V : Type} {l : List (UInt64 × V)} {samples : ChunkSamples}
    (h : samples.laneRows = none) {t0 : UInt64} {o : Option Bytes} :
    noLane t0 l = .ok o ↔ LaneShort t0 samples ∧ o = writtenLane crc32c t0 samples := by
  simp [noLane, LaneShort, writtenLane, h, eq_comm]

theorem typedLane_ok {T : Type} [TypedCounterValue T] {l : List (UInt64 × T)}
    {samples : ChunkSamples} (h : samples.laneRows = some (l.map laneRow)) {t0 : UInt64}
    {o : Option Bytes} :
    some <$> encodeTypedScalarLane crc32c t0 l = .ok o ↔
      LaneShort t0 samples ∧ o = writtenLane crc32c t0 samples := by
  have hlane : ∀ {b}, encodeTypedScalarLane crc32c t0 l = .ok b ↔
      (encodeLaneBody t0 (l.map laneRow)).length < 2 ^ 32 ∧
        encodeLane crc32c (encodeLaneBody t0 (l.map laneRow)) = b := by
    intro b
    simp only [encodeTypedScalarLane, require_bind_ok, except_pure_ok]
    refine and_congr_right fun hshort => and_iff_right ?_
    rw [typedScalarLaneHeaderLen]
    omega
  simp only [map_eq_pure_bind, except_bind_ok, except_pure_ok, hlane, LaneShort, writtenLane, h,
    Option.some.injEq, forall_eq', Option.map_some, and_assoc, exists_and_left, exists_eq_left',
    @eq_comm _ o]

theorem sampleFlags_eq {T : Type} [TypedCounterValue T] {l : List (UInt64 × T)}
    {samples : ChunkSamples} (h : samples.laneRows = some (l.map laneRow)) :
    samples.flags = sampleFlags l := by
  rw [← laneRows_flags h, sampleFlags, map_map]
  rfl

section Methods

theorem appendFloatChunkOrdered_ok {s : List (UInt64 × F64)} :
    w.appendFloatChunkOrdered crc32c seriesRef s = .ok (e, w') ↔
      Appended crc32c .gorilla seriesRef (.float s) w e w' :=
  appendOrdered_ok float rfl rfl rfl (fun _ => rfl) (noLane_ok rfl)

theorem appendFloatChunkRawOrdered_ok {s : List (UInt64 × F64)} :
    w.appendFloatChunkRawOrdered crc32c seriesRef s = .ok (e, w') ↔
      Appended crc32c .rawF64 seriesRef (.float s) w e w' :=
  appendOrdered_ok float rfl rfl rfl (fun _ => rfl) (noLane_ok rfl)

theorem appendIntChunkOrdered_ok {s : List (UInt64 × Int64)} :
    w.appendIntChunkOrdered crc32c seriesRef s = .ok (e, w') ↔
      Appended crc32c .intDeltaZigZag seriesRef (.int64 s) w e w' :=
  appendOrdered_ok int64 rfl rfl rfl (fun _ => rfl) (noLane_ok rfl)

theorem appendIntChunkRawOrdered_ok {s : List (UInt64 × Int64)} :
    w.appendIntChunkRawOrdered crc32c seriesRef s = .ok (e, w') ↔
      Appended crc32c .rawI64 seriesRef (.int64 s) w e w' :=
  appendOrdered_ok int64 rfl rfl rfl (fun _ => rfl) (noLane_ok rfl)

theorem appendSchemaVarlenChunkOrdered_ok {T : Type} [SchemaVarLenEncoding T]
    [TypedCounterValue T] (wrap : List (UInt64 × T) → ChunkSamples) {kind : ChunkKind}
    {l : List (UInt64 × T)} (hkind : (wrap l).kind = kind)
    (htimes : (wrap l).timestamps = l.map (·.1))
    (hrows : (wrap l).laneRows = some (l.map laneRow))
    (hencode : ∀ t0, encodeBody .schemaVarLen t0 (wrap l) =
      encodeSplitBody encodeSchemaValues t0 l) :
    w.appendSchemaVarlenChunkOrdered crc32c seriesRef kind l (sampleFlags l) = .ok (e, w') ↔
      Appended crc32c .schemaVarLen seriesRef (wrap l) w e w' :=
  appendOrdered_ok wrap hkind htimes (sampleFlags_eq hrows) hencode (typedLane_ok hrows)

end Methods

end ChunkWriter

-- `sort_by_key` is stable, as `mergeSort` is.
def samplesSortedByTimestamp {V : Type} (samples : List (UInt64 × V)) :
    Except IoError (List (UInt64 × V)) :=
  if samples = [] then .error (invalidInput "samples must be non-empty")
  else .ok (samples.mergeSort fun a b => a.1 ≤ b.1)

namespace ChunkWriter
variable (self : ChunkWriter) (crc32c : Bytes → UInt32) (seriesRef : UInt32)

def appendFloatChunk (samples : List (UInt64 × F64)) := do
  let sorted ← samplesSortedByTimestamp samples
  self.appendFloatChunkOrdered crc32c seriesRef sorted

def appendFloatChunkRaw (samples : List (UInt64 × F64)) := do
  let sorted ← samplesSortedByTimestamp samples
  self.appendFloatChunkRawOrdered crc32c seriesRef sorted

variable (samples : List (UInt64 × Int64))

def appendIntChunk := do
  let sorted ← samplesSortedByTimestamp samples
  self.appendIntChunkOrdered crc32c seriesRef sorted

def appendIntChunkRaw := do
  let sorted ← samplesSortedByTimestamp samples
  self.appendIntChunkRawOrdered crc32c seriesRef sorted

variable (timestampMs : UInt64)

def appendFloatSample (value : F64) :=
  self.appendFloatChunk crc32c seriesRef [(timestampMs, value)]

def appendFloatSampleRaw (value : F64) :=
  self.appendFloatChunkRaw crc32c seriesRef [(timestampMs, value)]

def appendIntSample (value : Int64) :=
  self.appendIntChunk crc32c seriesRef [(timestampMs, value)]

def appendIntSampleRaw (value : Int64) :=
  self.appendIntChunkRaw crc32c seriesRef [(timestampMs, value)]

end ChunkWriter

inductive AppendCall
  | floatSample (seriesRef : UInt32) (timestampMs : UInt64) (value : F64)
  | floatSampleRaw (seriesRef : UInt32) (timestampMs : UInt64) (value : F64)
  | intSample (seriesRef : UInt32) (timestampMs : UInt64) (value : Int64)
  | intSampleRaw (seriesRef : UInt32) (timestampMs : UInt64) (value : Int64)
  | floatChunk (seriesRef : UInt32) (samples : List (UInt64 × F64))
  | floatChunkOrdered (seriesRef : UInt32) (samples : List (UInt64 × F64))
  | floatChunkRaw (seriesRef : UInt32) (samples : List (UInt64 × F64))
  | floatChunkRawOrdered (seriesRef : UInt32) (samples : List (UInt64 × F64))
  | intChunk (seriesRef : UInt32) (samples : List (UInt64 × Int64))
  | intChunkOrdered (seriesRef : UInt32) (samples : List (UInt64 × Int64))
  | intChunkRaw (seriesRef : UInt32) (samples : List (UInt64 × Int64))
  | intChunkRawOrdered (seriesRef : UInt32) (samples : List (UInt64 × Int64))
  | histogramChunkOrdered (seriesRef : UInt32) (samples : List (UInt64 × HistogramValue))
  | exponentialHistogramChunkOrdered (seriesRef : UInt32)
      (samples : List (UInt64 × ExponentialHistogramValue))
  | summaryChunkOrdered (seriesRef : UInt32) (samples : List (UInt64 × SummaryValue))

namespace AppendCall

def run (crc32c : Bytes → UInt32) (w : ChunkWriter) :
    AppendCall → Except IoError (ChunkIndexEntry × ChunkWriter)
  | .floatSample ref t v => w.appendFloatSample crc32c ref t v
  | .floatSampleRaw ref t v => w.appendFloatSampleRaw crc32c ref t v
  | .intSample ref t v => w.appendIntSample crc32c ref t v
  | .intSampleRaw ref t v => w.appendIntSampleRaw crc32c ref t v
  | .floatChunk ref s => w.appendFloatChunk crc32c ref s
  | .floatChunkOrdered ref s => w.appendFloatChunkOrdered crc32c ref s
  | .floatChunkRaw ref s => w.appendFloatChunkRaw crc32c ref s
  | .floatChunkRawOrdered ref s => w.appendFloatChunkRawOrdered crc32c ref s
  | .intChunk ref s => w.appendIntChunk crc32c ref s
  | .intChunkOrdered ref s => w.appendIntChunkOrdered crc32c ref s
  | .intChunkRaw ref s => w.appendIntChunkRaw crc32c ref s
  | .intChunkRawOrdered ref s => w.appendIntChunkRawOrdered crc32c ref s
  | .histogramChunkOrdered ref s => w.appendHistogramChunkOrdered crc32c ref s
  | .exponentialHistogramChunkOrdered ref s =>
    w.appendExponentialHistogramChunkOrdered crc32c ref s
  | .summaryChunkOrdered ref s => w.appendSummaryChunkOrdered crc32c ref s

def contents : AppendCall → UInt32 × ChunkEncoding × ChunkSamples
  | .floatSample ref t v => (ref, .gorilla, .float [(t, v)])
  | .floatSampleRaw ref t v => (ref, .rawF64, .float [(t, v)])
  | .intSample ref t v => (ref, .intDeltaZigZag, .int64 [(t, v)])
  | .intSampleRaw ref t v => (ref, .rawI64, .int64 [(t, v)])
  | .floatChunk ref s | .floatChunkOrdered ref s => (ref, .gorilla, .float s)
  | .floatChunkRaw ref s | .floatChunkRawOrdered ref s => (ref, .rawF64, .float s)
  | .intChunk ref s | .intChunkOrdered ref s => (ref, .intDeltaZigZag, .int64 s)
  | .intChunkRaw ref s | .intChunkRawOrdered ref s => (ref, .rawI64, .int64 s)
  | .histogramChunkOrdered ref s => (ref, .schemaVarLen, .histogram s)
  | .exponentialHistogramChunkOrdered ref s => (ref, .schemaVarLen, .exponentialHistogram s)
  | .summaryChunkOrdered ref s => (ref, .schemaVarLen, .summary s)

variable (c : AppendCall)

def seriesRef : UInt32 := c.contents.1
def encoding : ChunkEncoding := c.contents.2.1
def samples : ChunkSamples := c.contents.2.2

def Ordered : Prop := c.samples.timestamps.Pairwise (· ≤ ·)

def record : ChunkRecord := ChunkRecord.ofSamples c.seriesRef c.samples

end AppendCall

theorem Appended.ne_nil {encoding : ChunkEncoding} {seriesRef : UInt32}
    {samples : ChunkSamples} {e : ChunkIndexEntry}
    (h : Appended crc32c encoding seriesRef samples w e w') : samples.timestamps ≠ [] := by
  obtain ⟨body, lane, -, hstored, -⟩ := h
  exact hstored.range.ne_nil

theorem sorted_append {V : Type} {s : List (UInt64 × V)} (h : (s.map (·.1)).Pairwise (· ≤ ·))
    {append : List (UInt64 × V) → Except IoError (ChunkIndexEntry × ChunkWriter)}
    {encoding : ChunkEncoding} {seriesRef : UInt32} {wrap : List (UInt64 × V) → ChunkSamples}
    {e : ChunkIndexEntry} (happend : ∀ s, append s = .ok (e, w') ↔
      Appended crc32c encoding seriesRef (wrap s) w e w') (hnil : (wrap []).timestamps = []) :
    (samplesSortedByTimestamp s >>= append) = .ok (e, w') ↔
      Appended crc32c encoding seriesRef (wrap s) w e w' := by
  rw [samplesSortedByTimestamp]
  split
  · rename_i hs
    subst hs
    exact iff_of_false (by simp [bind, Except.bind]) fun hempty => hempty.ne_nil hnil
  have hsorted : s.mergeSort (fun a b => a.1 ≤ b.1) = s :=
    mergeSort_of_pairwise (by simpa using pairwise_map.mp h)
  rw [hsorted]
  exact happend s

open ChunkWriter in
theorem AppendCall.run_ok {e : ChunkIndexEntry} {c : AppendCall} (h : c.Ordered) :
    c.run crc32c w = .ok (e, w') ↔ Appended crc32c c.encoding c.seriesRef c.samples w e w' := by
  cases c with
  | floatSample ref t v | floatChunk ref s =>
    exact sorted_append h (fun _ => appendFloatChunkOrdered_ok) rfl
  | floatSampleRaw ref t v | floatChunkRaw ref s =>
    exact sorted_append h (fun _ => appendFloatChunkRawOrdered_ok) rfl
  | intSample ref t v | intChunk ref s =>
    exact sorted_append h (fun _ => appendIntChunkOrdered_ok) rfl
  | intSampleRaw ref t v | intChunkRaw ref s =>
    exact sorted_append h (fun _ => appendIntChunkRawOrdered_ok) rfl
  | floatChunkOrdered ref s => exact appendFloatChunkOrdered_ok
  | floatChunkRawOrdered ref s => exact appendFloatChunkRawOrdered_ok
  | intChunkOrdered ref s => exact appendIntChunkOrdered_ok
  | intChunkRawOrdered ref s => exact appendIntChunkRawOrdered_ok
  | histogramChunkOrdered ref s =>
    exact appendSchemaVarlenChunkOrdered_ok histogram rfl rfl rfl fun _ => rfl
  | exponentialHistogramChunkOrdered ref s =>
    exact appendSchemaVarlenChunkOrdered_ok exponentialHistogram rfl rfl rfl fun _ => rfl
  | summaryChunkOrdered ref s =>
    exact appendSchemaVarlenChunkOrdered_ok summary rfl rfl rfl fun _ => rfl

end Chronoxide
