import Chronoxide.Chunk.Header
import Chronoxide.Chunk.Timestamps

/-! The scalar lane of typed chunks: timestamps, metadata, count and sum of every sample, with a
checksum of its own (`encode_typed_scalar_lane` and the lane readers of `chunk/codec.rs`). -/

namespace Chronoxide
open Codec List

structure DecodedTypedScalarLaneRow where
  timestampMs : UInt64
  metadata : TypedSampleMetadata
  count : UInt64
  sum : Option F64
  deriving DecidableEq, Repr

def encodeScalarLaneMetadata : TypedSampleMetadata → Bytes := encodeTypedMetadata
def encodeScalarLaneOptF64 : Option F64 → Bytes := encodeOptF64

def laneRow {T : Type} [TypedCounterValue T] (sample : UInt64 × T) : DecodedTypedScalarLaneRow :=
  ⟨sample.1, TypedCounterValue.metadata sample.2, TypedCounterValue.count sample.2,
    TypedCounterValue.sum sample.2⟩

def encodeLaneValue (row : DecodedTypedScalarLaneRow) : Bytes :=
  encodeScalarLaneMetadata row.metadata ++ (encodeVarint row.count ++
    encodeScalarLaneOptF64 row.sum)

def encodeLaneBody (t0Ms : UInt64) (rows : List DecodedTypedScalarLaneRow) : Bytes :=
  u64ToLe t0Ms ++ (encodeDeltas t0Ms (rows.map (·.timestampMs)) ++ rows.flatMap encodeLaneValue)

variable (crc32c : Bytes → UInt32)

def encodeLane (body : Bytes) : Bytes :=
  u32ToLe typedScalarLaneMagic ++ (u16ToLe typedScalarLaneVersion ++ (u16ToLe 0 ++
    (u32ToLe (UInt32.ofNat body.length) ++ (u32ToLe (crc32c body) ++ body))))

def encodeTypedScalarLane {T : Type} [TypedCounterValue T] (t0Ms : UInt64)
    (samples : List (UInt64 × T)) : Except IoError Bytes := do
  let body := encodeLaneBody t0Ms (samples.map laneRow)
  require (body.length < 2 ^ 32)
    (invalidInput "typed scalar lane body exceeds the u32 on-disk limit")
  require (typedScalarLaneHeaderLen + body.length < 2 ^ 64)
    (invalidInput "typed scalar lane length overflows")
  return encodeLane crc32c body

def ChunkKind.isTyped : ChunkKind → Bool
  | .histogram | .exponentialHistogram | .summary => true
  | .float | .int64 => false

def laneHeaderShort : IoError := unexpectedEof "typed scalar lane header short read"

def typedScalarLaneBody (header : DecodedChunkHeader) (lane : Bytes) : Except IoError Bytes :=
  Parser.value (do
    Parser.ensure (header.numPoints ≠ 0) (invalidData "typed scalar lane has no points")
    Parser.ensure (header.encoding = .schemaVarLen)
      (invalidData "typed scalar lane requires schema varlen encoding")
    Parser.ensure header.kind.isTyped (invalidInput "typed scalar lane requires a typed chunk")
    let laneLen ← Parser.remaining
    Parser.ensure (typedScalarLaneHeaderLen ≤ laneLen) laneHeaderShort
    let magic ← takeU32 laneHeaderShort
    Parser.ensure (magic = typedScalarLaneMagic) (invalidData "typed scalar lane magic mismatch")
    let version ← takeU16 laneHeaderShort
    Parser.ensure (version = typedScalarLaneVersion)
      (invalidData "unsupported typed scalar lane version")
    let flags ← takeU16 laneHeaderShort
    Parser.ensure (flags = 0) (invalidData "typed scalar lane flags must be zero")
    let bodyLen ← takeU32 laneHeaderShort
    let bodyCrc ← takeU32 laneHeaderShort
    Parser.ensure (typedScalarLaneHeaderLen + bodyLen.toNat = laneLen)
      (invalidData "typed scalar lane body length mismatch")
    let body ← Parser.takeN bodyLen.toNat laneHeaderShort
    Parser.ensure (crc32c body = bodyCrc) (invalidData "typed scalar lane crc mismatch")
    let minimumBodyLen := header.numPoints.toNat * 7 + 8
    Parser.ensure (minimumBodyLen < 2 ^ 64)
      (invalidData "typed scalar lane minimum body size overflows")
    Parser.ensure (minimumBodyLen ≤ body.length)
      (invalidData "typed scalar lane point count is infeasible for its body bytes")
    return body) lane

structure DecodedChunkHeader.HasLane (header : DecodedChunkHeader) : Prop where
  points : header.numPoints ≠ 0
  encoding : header.encoding = .schemaVarLen
  typed : header.kind.isTyped

theorem typedScalarLaneBody_ok {crc32c : Bytes → UInt32} {header : DecodedChunkHeader}
    {lane body : Bytes} :
    typedScalarLaneBody crc32c header lane = .ok body ↔
      header.HasLane ∧ body.length < 2 ^ 32 ∧ header.numPoints.toNat * 7 + 8 ≤ body.length ∧
        lane = encodeLane crc32c body := by
  rw [typedScalarLaneBody, Parser.value_ok]
  simp only [Parser.bind_ok, Parser.ensure_ok, Parser.exists_ensure, Parser.remaining_ok,
    takeU32_ok, takeU16_ok, Parser.takeN_ok, Parser.pure_ok, encodeLane]
  constructor
  · rintro ⟨_, hpoints, hencoding, htyped, _, _, ⟨rfl, rfl⟩, -, _, _, rfl, rfl, _, _, rfl, rfl, _, _, rfl,
      rfl, len, _, rfl, _, _, rfl, hlen, body, rest, ⟨hbody, rfl⟩, rfl, -, hmin, rfl, rfl⟩
    simp only [length_append, u32ToLe_length, u16ToLe_length, typedScalarLaneHeaderLen]
      at hlen
    obtain rfl : rest = [] := length_eq_zero_iff.mp (by omega)
    refine ⟨⟨hpoints, hencoding, htyped⟩, by rw [hbody]; exact len.toNat_lt, hmin, ?_⟩
    rw [append_nil, hbody, UInt32.ofNat_toNat]
  rintro ⟨⟨hpoints, hencoding, htyped⟩, hlt, hmin, rfl⟩
  have hlen : (UInt32.ofNat body.length).toNat = body.length := UInt32.toNat_ofNat_of_lt' hlt
  refine ⟨[], hpoints, hencoding, htyped, _, _, ⟨rfl, rfl⟩, ?_, _, _, rfl, rfl, _, _, rfl, rfl, _, _,
    rfl, rfl, _, _, rfl, _, _, rfl, ?_, body, [], ⟨hlen.symm, (append_nil _).symm⟩, rfl,
    by omega, hmin, rfl, rfl⟩
  · simp only [length_append, u32ToLe_length, u16ToLe_length, typedScalarLaneHeaderLen]
    omega
  · simp only [length_append, u32ToLe_length, u16ToLe_length, typedScalarLaneHeaderLen, hlen]
    omega

def decodeLaneValue : Reader (TypedSampleMetadata × UInt64 × Option F64) := do
  let metadata ← decodeTypedMetadata
  let count ← decodeVarint
  let sum ← decodeOptF64
  return (metadata, count, sum)

theorem decodeLaneValue_ok {bs rest : Bytes} {v : TypedSampleMetadata × UInt64 × Option F64} :
    decodeLaneValue bs = .ok (v, rest) ↔ bs = encodeLaneValue ⟨0, v.1, v.2.1, v.2.2⟩ ++ rest := by
  simp only [decodeLaneValue, Parser.bind_ok, decodeTypedMetadata_ok, decodeVarint_ok,
    decodeOptF64_ok, Parser.pure_ok, encodeLaneValue, encodeScalarLaneMetadata,
    encodeScalarLaneOptF64, append_assoc]
  constructor
  · rintro ⟨md, _, rfl, count, _, rfl, sum, _, rfl, rfl, rfl⟩
    rfl
  · rintro rfl
    exact ⟨_, _, rfl, _, _, rfl, _, _, rfl, rfl, rfl⟩

/-- The two cursors of the row loop, what it has seen, and the caller's state. -/
structure LaneCursor (σ : Type) where
  timestamps : Bytes
  values : Bytes
  first : Option UInt64
  previous : Option UInt64
  flags : TypedChunkFlagsAccumulator
  acc : σ

section Rows
variable {σ : Type} (t0Ms : UInt64)
  (onRow : σ → DecodedTypedScalarLaneRow → Except IoError σ)

def laneStep (c : LaneCursor σ) : Except IoError (LaneCursor σ) := do
  let (timestampMs, timestamps) ← decodeTimestamp t0Ms c.timestamps
  require (¬c.previous.any (timestampMs < ·))
    (invalidData "typed scalar lane timestamps are not ordered")
  let ((metadata, count, sum), values) ← decodeLaneValue c.values
  let acc ← onRow c.acc { timestampMs, metadata, count, sum }
  return { timestamps, values, first := c.first.or (some timestampMs),
           previous := some timestampMs, flags := c.flags.observe metadata, acc }

def laneLoop : Nat → LaneCursor σ → Except IoError (LaneCursor σ)
  | 0, c => .ok c
  | n + 1, c => do
    let c ← laneStep t0Ms onRow c
    laneLoop n c

variable {t0Ms onRow}

/-- The loop goes from `c` to `c'` by consuming `rows`. -/
structure LaneCursor.Reads (t0Ms : UInt64)
    (onRow : σ → DecodedTypedScalarLaneRow → Except IoError σ) (c : LaneCursor σ)
    (rows : List DecodedTypedScalarLaneRow) (c' : LaneCursor σ) : Prop where
  base : ∀ row ∈ rows, t0Ms ≤ row.timestampMs
  ordered : List.IsChain (· ≤ ·) (c.previous.toList ++ rows.map (·.timestampMs))
  timestamps : c.timestamps = encodeDeltas t0Ms (rows.map (·.timestampMs)) ++ c'.timestamps
  values : c.values = rows.flatMap encodeLaneValue ++ c'.values
  acc : rows.foldlM onRow c.acc = .ok c'.acc
  first : c'.first = c.first.or (rows.map (·.timestampMs)).head?
  previous : c'.previous = (rows.map (·.timestampMs)).getLast?.or c.previous
  flags : c'.flags = (rows.map (·.metadata)).foldl TypedChunkFlagsAccumulator.observe c.flags

variable {c c' : LaneCursor σ}

theorem LaneCursor.reads_nil : LaneCursor.Reads t0Ms onRow c [] c' ↔ c = c' := by
  constructor
  · intro h
    obtain ⟨-, -, hts, hvs, hacc, hfirst, hprev, hflags⟩ := h
    obtain ⟨ts, vs, first, previous, flags, acc⟩ := c
    obtain ⟨ts', vs', first', previous', flags', acc'⟩ := c'
    simp_all [encodeDeltas, pure, Except.pure]
  · rintro rfl
    refine ⟨by simp, ?_, rfl, rfl, rfl, by simp, by simp, rfl⟩
    cases c.previous <;> simp

theorem isChain_toList_cons {p : Option UInt64} {t : UInt64} {ts : List UInt64} :
    List.IsChain (· ≤ ·) (p.toList ++ t :: ts) ↔
      (∀ q ∈ p, q ≤ t) ∧ List.IsChain (· ≤ ·) (t :: ts) := by
  cases p <;> simp

theorem LaneCursor.reads_cons {row : DecodedTypedScalarLaneRow}
    {rows : List DecodedTypedScalarLaneRow} :
    LaneCursor.Reads t0Ms onRow c (row :: rows) c' ↔
      ∃ c₁, LaneCursor.Reads t0Ms onRow c [row] c₁ ∧ LaneCursor.Reads t0Ms onRow c₁ rows c' := by
  have hlast : ∀ p : Option UInt64, ((row :: rows).map (·.timestampMs)).getLast?.or p =
      (rows.map (·.timestampMs)).getLast?.or (some row.timestampMs) := fun p => by
    rw [map_cons, getLast?_cons]
    cases (rows.map (·.timestampMs)).getLast? <;> rfl
  constructor
  · rintro ⟨hbase, hordered, hts, hvs, hacc, hfirst, hprev, hflags⟩
    rw [foldlM_cons, except_bind_ok] at hacc
    obtain ⟨acc, hrow, hacc⟩ := hacc
    rw [map_cons, isChain_toList_cons] at hordered
    rw [hlast] at hprev
    refine ⟨⟨encodeDeltas t0Ms (rows.map (·.timestampMs)) ++ c'.timestamps,
      rows.flatMap encodeLaneValue ++ c'.values, c.first.or (some row.timestampMs),
      some row.timestampMs, c.flags.observe row.metadata, acc⟩,
      ⟨by simpa using hbase row (by simp), ?_, by simpa [encodeDeltas] using hts,
        by simpa using hvs, by simpa using hrow, rfl, rfl, rfl⟩,
      ⟨fun r hr => hbase r (by simp [hr]), hordered.2, rfl, rfl, hacc, ?_, hprev, hflags⟩⟩
    · rw [map_cons, isChain_toList_cons]
      exact ⟨hordered.1, by simp⟩
    · rw [hfirst]
      cases c.first <;> simp
  rintro ⟨c₁, ⟨hbase, hordered, hts, hvs, hacc, hfirst, hprev, hflags⟩,
    ⟨hbase', hordered', hts', hvs', hacc', hfirst', hprev', hflags'⟩⟩
  simp only [map_cons, map_nil, isChain_toList_cons] at hordered
  simp only [foldlM_cons, foldlM_nil, bind_pure] at hacc
  have hprev₁ : c₁.previous = some row.timestampMs := by simpa using hprev
  rw [hprev₁] at hordered' hprev'
  refine ⟨?_, isChain_toList_cons.mpr ⟨hordered.1, hordered'⟩, ?_, ?_, ?_, ?_, ?_, ?_⟩
  · simpa using ⟨hbase row (by simp), hbase'⟩
  · rw [hts, hts']
    simp [encodeDeltas]
  · rw [hvs, hvs']
    simp
  · rw [foldlM_cons, except_bind_ok]
    exact ⟨_, hacc, hacc'⟩
  · rw [hfirst', hfirst]
    cases c.first <;> simp
  · rw [hlast, hprev']
  · rw [hflags', hflags]
    rfl

theorem laneStep_ok :
    laneStep t0Ms onRow c = .ok c' ↔ ∃ row, LaneCursor.Reads t0Ms onRow c [row] c' := by
  have hprev : ∀ t : UInt64, (¬c.previous.any (t < ·)) ↔ ∀ p ∈ c.previous, p ≤ t := fun t => by
    cases c.previous <;> simp [UInt64.not_lt]
  simp only [laneStep, except_bind_ok, require_ok, exists_const, Prod.exists, hprev,
    decodeTimestamp_codes t0Ms _ _ _, decodeLaneValue_ok, except_pure_ok]
  constructor
  · rintro ⟨t, ts, ⟨hle, hts⟩, hp, md, count, sum, vs, hvs, acc, hacc, rfl⟩
    exact ⟨⟨t, md, count, sum⟩, by simpa using hle, by simpa [isChain_toList_cons] using hp,
      by simpa [encodeDeltas] using hts, by simpa [encodeLaneValue] using hvs, by simpa using hacc,
      rfl, rfl, rfl⟩
  obtain ⟨ts', vs', first', previous', flags', acc'⟩ := c'
  rintro ⟨row, hbase, hordered, hts, hvs, hacc, rfl, rfl, rfl⟩
  simp only [map_cons, map_nil, isChain_toList_cons] at hordered
  simp only [foldlM_cons, foldlM_nil, bind_pure] at hacc
  exact ⟨_, _, ⟨hbase row (by simp), by simpa [encodeDeltas] using hts⟩, hordered.1, _, _, _, _,
    by simpa [encodeLaneValue] using hvs, _, hacc, rfl⟩

/-- Everything the loop does: it consumes as many rows as it is told to. -/
theorem laneLoop_ok {n : Nat} :
    laneLoop t0Ms onRow n c = .ok c' ↔
      ∃ rows, rows.length = n ∧ LaneCursor.Reads t0Ms onRow c rows c' := by
  induction n generalizing c with
  | zero =>
    simp [laneLoop, length_eq_zero_iff, LaneCursor.reads_nil]
  | succ n ih =>
    rw [laneLoop, except_bind_ok]
    simp only [laneStep_ok, ih]
    constructor
    · rintro ⟨c₁, ⟨row, hrow⟩, rows, rfl, hrows⟩
      exact ⟨row :: rows, rfl, LaneCursor.reads_cons.mpr ⟨c₁, hrow, hrows⟩⟩
    rintro ⟨rows, hlen, hrows⟩
    obtain ⟨row, rows, rfl⟩ := exists_cons_of_length_pos (by omega : 0 < rows.length)
    obtain ⟨c₁, hrow, hrows⟩ := LaneCursor.reads_cons.mp hrows
    exact ⟨c₁, ⟨row, hrow⟩, rows, Nat.succ.inj hlen, hrows⟩

end Rows

section Readers
variable {σ : Type} (crc32c : Bytes → UInt32) (header : DecodedChunkHeader)

-- The deltas are walked once to find where the rows start, and again with the rows.
def forEachTypedScalarLaneRowBody (body : Bytes)
    (onRow : σ → DecodedTypedScalarLaneRow → Except IoError σ) (init : σ) : Except IoError σ := do
  let (t0Ms, timestampCursor) ← readU64 body
  require (t0Ms = header.minTimeMs)
    (invalidData "typed scalar lane timestamp base disagrees with min_time_ms")
  let (_, valuesStart) ← decodeVarint.times header.numPoints.toNat timestampCursor
  let c ← laneLoop t0Ms onRow header.numPoints.toNat
    ⟨timestampCursor, valuesStart, none, none, .default, init⟩
  require (c.timestamps.length = valuesStart.length ∧ c.values = [])
    (invalidData "typed scalar lane has trailing bytes")
  require (c.first = some header.minTimeMs ∧ c.previous = some header.maxTimeMs)
    (invalidData "typed scalar lane timestamp range disagrees with the chunk header")
  require (c.flags.finish = header.flags)
    (invalidData "typed chunk header flags disagree with scalar-lane metadata")
  return c.acc

def forEachTypedScalarLaneRow (lane : Bytes)
    (onRow : σ → DecodedTypedScalarLaneRow → Except IoError σ) (init : σ) : Except IoError σ := do
  let body ← typedScalarLaneBody crc32c header lane
  forEachTypedScalarLaneRowBody header body onRow init

structure LaneRows (rows : List DecodedTypedScalarLaneRow) : Prop where
  count : rows.length = header.numPoints.toNat
  range : TimeRange header.minTimeMs header.maxTimeMs (rows.map (·.timestampMs))
  flags : typedChunkFlags (rows.map (·.metadata)) = header.flags

structure LaneOf (lane : Bytes) (rows : List DecodedTypedScalarLaneRow) : Prop
    extends LaneRows header rows where
  has : header.HasLane
  short : (encodeLaneBody header.minTimeMs rows).length < 2 ^ 32
  bytes : lane = encodeLane crc32c (encodeLaneBody header.minTimeMs rows)

variable {crc32c header}

theorem forEachTypedScalarLaneRowBody_ok {body : Bytes}
    {onRow : σ → DecodedTypedScalarLaneRow → Except IoError σ} {init s : σ} :
    forEachTypedScalarLaneRowBody header body onRow init = .ok s ↔ ∃ rows, LaneRows header rows ∧
      body = encodeLaneBody header.minTimeMs rows ∧ rows.foldlM onRow init = .ok s := by
  simp only [forEachTypedScalarLaneRowBody, except_bind_ok, Prod.exists, readU64_ok, require_ok,
    exists_const, decodeVarint_codes.times _ _ _ _, laneLoop_ok, except_pure_ok]
  constructor
  · rintro ⟨t0, cursor, rfl, rfl, deltas, start, ⟨⟨hn, -⟩, hstart⟩, c, ⟨rows, hrows, hreads⟩,
      ⟨hcursor, hend⟩, ⟨hfirst, hlast⟩, hflags, rfl⟩
    obtain ⟨-, hordered, hts, hvs, hacc, hfirst', hprev', hflags'⟩ := hreads
    dsimp only at hordered hts hvs hacc hfirst' hprev' hflags'
    rw [hfirst', Option.none_or] at hfirst
    rw [hprev', Option.or_none] at hlast
    rw [hflags'] at hflags
    have hordered' := isChain_iff_pairwise.mp hordered
    refine ⟨rows, ⟨hrows, ⟨hfirst, hlast, hordered'⟩, hflags⟩, ?_, hacc⟩
    -- both walks stop at the same place, so the rows start right after their deltas
    have hsame : deltas.flatMap encodeVarint = encodeDeltas header.minTimeMs
        (rows.map (·.timestampMs)) ∧ start = c.timestamps :=
      append_inj' (hstart.symm.trans hts) hcursor.symm
    rw [encodeLaneBody, hstart, hsame.1, hvs, hend, append_nil]
  rintro ⟨rows, ⟨hcount, hrange, hflags⟩, rfl, hacc⟩
  refine ⟨header.minTimeMs, _, rfl, rfl,
    (rows.map (·.timestampMs)).map (saturatingSub · header.minTimeMs),
    rows.flatMap encodeLaneValue, ⟨⟨by simpa using hcount, fun _ _ => trivial⟩, ?_⟩, ?_⟩
  · rw [flatMap_map]
    rfl
  refine ⟨⟨rows.flatMap encodeLaneValue, [], some header.minTimeMs, some header.maxTimeMs, _, s⟩,
    ⟨rows, hcount, ⟨?_, ?_, rfl, (append_nil _).symm, hacc, ?_, ?_, rfl⟩⟩, ⟨rfl, rfl⟩,
    ⟨rfl, rfl⟩, hflags, rfl⟩
  · intro row hrow
    exact hrange.min_le _ (mem_map_of_mem hrow)
  · exact isChain_iff_pairwise.mpr hrange.ordered
  · rw [Option.none_or, hrange.first]
  · rw [Option.or_none, hrange.last]

theorem encodeLaneValue_length (row : DecodedTypedScalarLaneRow) :
    6 ≤ (encodeLaneValue row).length := by
  have h1 := encodeTypedMetadata_length row.metadata
  have h2 := encodeVarint_length_pos row.count
  have h3 := encodeOptF64_length_pos row.sum
  simp only [encodeLaneValue, encodeScalarLaneMetadata, encodeScalarLaneOptF64, length_append]
  omega

theorem encodeLaneBody_length (t0 : UInt64) (rows : List DecodedTypedScalarLaneRow) :
    rows.length * 7 + 8 ≤ (encodeLaneBody t0 rows).length := by
  have h1 := encodeDeltas_length_ge t0 (rows.map (·.timestampMs))
  have h2 := length_flatMap_ge encodeLaneValue_length rows
  rw [length_map] at h1
  simp only [encodeLaneBody, length_append, u64ToLe_length]
  omega

theorem forEachTypedScalarLaneRow_ok {lane : Bytes}
    {onRow : σ → DecodedTypedScalarLaneRow → Except IoError σ} {init s : σ} :
    forEachTypedScalarLaneRow crc32c header lane onRow init = .ok s ↔
      ∃ rows, LaneOf crc32c header lane rows ∧ rows.foldlM onRow init = .ok s := by
  simp only [forEachTypedScalarLaneRow, except_bind_ok, typedScalarLaneBody_ok,
    forEachTypedScalarLaneRowBody_ok]
  constructor
  · rintro ⟨body, ⟨hlane, hlen, -, rfl⟩, rows, hrows, rfl, hacc⟩
    exact ⟨rows, ⟨hrows, hlane, hlen, rfl⟩, hacc⟩
  rintro ⟨rows, ⟨hrows, hlane, hlen, rfl⟩, hacc⟩
  refine ⟨_, ⟨hlane, hlen, ?_, rfl⟩, rows, hrows, rfl, hacc⟩
  rw [← hrows.count]
  exact encodeLaneBody_length _ _

end Readers

end Chronoxide
