import Chronoxide.Codec.Framing
import Chronoxide.Encoding.Fields
import Chronoxide.Wal.Truncation
import Mathlib.Data.List.Forall2

/-! Records of the write-ahead log (`storage/wal.rs`) and of the manifest (`storage/manifest.rs`): a
header of sixteen bytes, the payload and a checksum of both. Allocations are taken to succeed. -/

namespace Chronoxide
open Codec Parser List

structure LogFormat (τ α : Type) where
  subject : String
  magic : UInt32
  version : UInt16
  /-- The check of the record type that comes before the payload is read. -/
  fromU16 : UInt16 → Except IoError τ
  decode : τ → Bytes → Except IoError α

/-- What `read_exact` says of a short source. -/
def shortRead : IoError := unexpectedEof "failed to fill whole buffer"

section Format
variable {τ α : Type} (crc32c : Bytes → UInt32) (crc32cAppend : UInt32 → Bytes → UInt32)
  (format : LogFormat τ α)

def logHeader (recordType : UInt16) (payloadLen : UInt64) : Bytes :=
  [u32ToLe format.magic, u16ToLe format.version, u16ToLe recordType, u64ToLe payloadLen].flatten

def encodeLogRecord (recordType : UInt16) (payload : Bytes) : Except IoError Bytes := do
  require (payload.length < 2 ^ 64)
    (invalidInput (format.subject ++ " record payload length exceeds u64"))
  let header := logHeader format recordType (UInt64.ofNat payload.length)
  return header ++ (payload ++ u32ToLe (crc32cAppend (crc32c header) payload))

def readLogRecordFrom (first : UInt8) : Reader (Option α) := do
  let header := first :: (← takeN 15 shortRead)
  ensure (readU32At header 0 = format.magic)
    (invalidData ("invalid " ++ format.subject ++ " record magic"))
  ensure (readU16At header 4 = format.version)
    (invalidData ("unsupported " ++ format.subject ++ " record version"))
  let recordType ← lift (format.fromU16 (readU16At header 6))
  let payload ← takeN (readU64At header 8).toNat shortRead
  let crcBuf ← takeN 4 shortRead
  ensure (u32FromLe crcBuf = crc32cAppend (crc32c header) payload)
    (invalidData (format.subject ++ " record checksum mismatch"))
  let record ← lift (format.decode recordType payload)
  lift (.ok (some record))

def readLogRecord : Reader (Option α)
  | [] => .ok (none, [])
  | first :: rest => readLogRecordFrom crc32c crc32cAppend format first rest

variable {crc32c crc32cAppend format}

theorem logHeader_fields {recordType : UInt16} {payloadLen : UInt64} {header : Bytes}
    (h : header = logHeader format recordType payloadLen) :
    header.length = 16 ∧ readU32At header 0 = format.magic ∧ readU16At header 4 = format.version ∧
      readU16At header 6 = recordType ∧ readU64At header 8 = payloadLen := by
  obtain ⟨hlength, hmagic, hversion, htype, hlen, -⟩ := (eq_flatten_iff _).mp h
  simp only [map_cons, map_nil, sum_cons, sum_nil, u32ToLe_length,
    u16ToLe_length, u64ToLe_length] at hlength hmagic hversion htype hlen
  exact ⟨hlength, (readU32At_eq_iff (by omega) _).mpr hmagic,
    (readU16At_eq_iff (by omega) _).mpr hversion, (readU16At_eq_iff (by omega) _).mpr htype,
    (readU64At_eq_iff (by omega) _).mpr hlen⟩

theorem streams_readLogRecordFrom (first : UInt8) :
    Streams shortRead (readLogRecordFrom crc32c crc32cAppend format first) :=
  streams_bind (streams_takeN 15) fun _ =>
  streams_bind (streams_ensure _ _) fun _ =>
  streams_bind (streams_ensure _ _) fun _ =>
  streams_bind (streams_lift _) fun _ =>
  streams_bind (streams_takeN _) fun _ =>
  streams_bind (streams_takeN 4) fun _ =>
  streams_bind (streams_ensure _ _) fun _ =>
  streams_bind (streams_lift _) fun _ => streams_lift _

theorem isFrame_of_encodeLogRecord {recordType : UInt16} {kind : τ} {payload frame : Bytes}
    {record : α} (hencode : encodeLogRecord crc32c crc32cAppend format recordType payload = .ok frame)
    (htype : format.fromU16 recordType = .ok kind) (hdecode : format.decode kind payload = .ok record) :
    IsFrame (readLogRecord crc32c crc32cAppend format) shortRead record frame := by
  simp only [encodeLogRecord, except_bind_ok, require_ok, except_pure_ok] at hencode
  obtain ⟨-, hsize, rfl⟩ := hencode
  set header := logHeader format recordType (UInt64.ofNat payload.length) with hheader
  obtain ⟨hlength, hmagic, hversion, hread, hlen⟩ := logHeader_fields hheader
  obtain ⟨first, rest, hsplit⟩ := exists_cons_of_length_eq_add_one hlength
  rw [hsplit] at hlength hmagic hversion hread hlen ⊢
  set body := rest ++ (payload ++ u32ToLe (crc32cAppend (crc32c (first :: rest)) payload))
  have hwhole : readLogRecordFrom crc32c crc32cAppend format first body = .ok (some record, []) := by
    simp only [readLogRecordFrom, bind_ok, takeN_ok, ensure_ok, exists_ensure, lift_ok]
    refine ⟨rest, _, ⟨by simpa using hlength, rfl⟩, hmagic, hversion, kind, _, ⟨hread ▸ htype, rfl⟩,
      payload, _, ⟨?_, rfl⟩, _, [], ⟨u32ToLe_length _, (append_nil _).symm⟩,
      (u32FromLe_eq_iff (u32ToLe_length _) _).mpr rfl, record, _, ⟨hdecode, rfl⟩, rfl, rfl⟩
    rw [hlen, UInt64.toNat_ofNat_of_lt' hsize]
  obtain ⟨front, hfront, hreads, hcut⟩ := streams_readLogRecordFrom first _ _ _ hwhole
  rw [append_nil] at hfront
  subst hfront
  refine ⟨Nat.succ_pos _, hreads, fun k hk hlt => ?_⟩
  obtain ⟨k, rfl⟩ := Nat.exists_eq_add_one_of_ne_zero (Nat.ne_of_gt hk)
  exact hcut k (Nat.lt_of_succ_lt_succ hlt)

end Format

inductive WalRecordType
  | otlpBatch
  | checkpoint
  | segmentSealed
  deriving DecidableEq, Repr

def WalRecordType.asU16 : WalRecordType → UInt16
  | otlpBatch => 1
  | checkpoint => 2
  | segmentSealed => 3

def WalRecordType.fromU16 (value : UInt16) : Except IoError WalRecordType :=
  if value = 1 then .ok otlpBatch
  else if value = 2 then .ok checkpoint
  else if value = 3 then .ok segmentSealed
  else .error (invalidData "unknown WAL record type")

structure WalRecord where
  recordType : WalRecordType
  payload : Bytes
  deriving DecidableEq, Repr

def walFormat : LogFormat WalRecordType WalRecord where
  subject := "WAL"
  magic := u32FromLe [67, 87, 65, 76]
  version := 1
  fromU16 := WalRecordType.fromU16
  decode recordType payload := .ok ⟨recordType, payload⟩

section
variable (crc32c : Bytes → UInt32) (crc32cAppend : UInt32 → Bytes → UInt32)

def writeWalRecord (record : WalRecord) : Except IoError Bytes :=
  encodeLogRecord crc32c crc32cAppend walFormat record.recordType.asU16 record.payload

def readWalRecord : Reader (Option WalRecord) := readLogRecord crc32c crc32cAppend walFormat

theorem isFrame_writeWalRecord {record : WalRecord} {frame : Bytes}
    (h : writeWalRecord crc32c crc32cAppend record = .ok frame) :
    IsFrame (readWalRecord crc32c crc32cAppend) shortRead record frame :=
  isFrame_of_encodeLogRecord h (by cases record.recordType <;> rfl) rfl

end

inductive SegmentIdError
  | invalidRange (startMs endMs : UInt64)
  | invalidFormat (name : String)
  | invalidNumber (text : String)
  | invalidUlid (text : String)
  deriving DecidableEq, Repr

def SegmentIdError.display : SegmentIdError → String
  | invalidRange startMs endMs => s!"segment range invalid: start_ms={startMs} end_ms={endMs}"
  | invalidFormat name => s!"segment dir format invalid: {name}"
  | invalidNumber text => s!"segment dir number invalid: {text}"
  | invalidUlid text => s!"segment ulid invalid: {text}"

structure SegmentId where
  startMs : UInt64
  endMs : UInt64
  ulid : BitVec 128
  deriving DecidableEq, Repr

def SegmentId.withUlid (startMs endMs : UInt64) (ulid : BitVec 128) :
    Except SegmentIdError SegmentId :=
  if endMs ≤ startMs then .error (.invalidRange startMs endMs) else .ok ⟨startMs, endMs, ulid⟩

def splitn : Nat → List Char → List String
  | 0, _ => []
  | 1, text => [String.ofList text]
  | n + 2, text =>
    match text.span (· != '-') with
    | (part, []) => [String.ofList part]
    | (part, _ :: rest) => String.ofList part :: splitn (n + 1) rest

/-- `str::parse::<u64>`, which takes a leading plus. -/
def parseU64 (text : String) : Option UInt64 :=
  let digits := match text.toList with
    | '+' :: rest => rest
    | chars => chars
  let value := Nat.ofDigitChars 10 digits 0
  if digits ≠ [] ∧ digits.all Char.isDigit ∧ value < 2 ^ 64 then some (UInt64.ofNat value) else none

inductive ManifestRecord
  | segmentSealed (segment : ManifestSegment)
  | segmentDeleted (segmentId : String)
  deriving DecidableEq, Repr

def ManifestRecord.recordType : ManifestRecord → UInt16
  | segmentSealed _ => 1
  | segmentDeleted _ => 2

def writeString (value : String) : Except IoError Bytes := do
  require ((asBytes value).length < 2 ^ 16) (invalidInput "manifest string too long")
  return u16ToLe (UInt16.ofNat (asBytes value).length) ++ asBytes value

def manifestTruncated : IoError := unexpectedEof "manifest payload truncated"

def readString : Reader String := do
  let len ← takeU16 manifestTruncated
  let bytes ← takeN len.toNat manifestTruncated
  ofOption (String.fromUTF8? bytes.toByteArray) (invalidData "manifest string is not valid UTF-8")

theorem readString_of_writeString {value : String} {bytes : Bytes} (h : writeString value = .ok bytes)
    (rest : Bytes) : readString (bytes ++ rest) = .ok (value, rest) := by
  simp only [writeString, except_bind_ok, require_ok, except_pure_ok] at h
  obtain ⟨-, hsize, rfl⟩ := h
  simp only [readString, bind_ok, takeU16_ok, takeN_ok, ofOption_ok, append_assoc]
  refine ⟨_, _, rfl, asBytes value, rest, ⟨?_, rfl⟩, ?_, rfl⟩
  · rw [UInt16.toNat_ofNat_of_lt' hsize]
  · rw [toByteArray_asBytes]
    exact dif_pos value.isValidUTF8

section Manifest
variable (parseUlid : String → Option (BitVec 128))

def SegmentId.parseDirName (name : String) : Except SegmentIdError SegmentId :=
  match (stripPrefix name "seg-").map (splitn 3 ·.toList) with
  | some [start, stop, ulidStr] => do
    let startMs ← (parseU64 start).elim (.error (.invalidNumber start)) .ok
    let endMs ← (parseU64 stop).elim (.error (.invalidNumber stop)) .ok
    let ulid ← (parseUlid ulidStr).elim (.error (.invalidUlid ulidStr)) .ok
    withUlid startMs endMs ulid
  | _ => .error (.invalidFormat name)

def validateSegmentId (segmentId : String) (startMs endMs : UInt64) : Except IoError Unit :=
  match SegmentId.parseDirName parseUlid segmentId with
  | .error err => .error (invalidInput ("invalid manifest segment id: " ++ err.display))
  | .ok parsed => require (parsed.startMs = startMs ∧ parsed.endMs = endMs)
      (invalidInput "manifest segment id range does not match record range")

def validateManifestSegmentName (segmentId : String) : Except IoError Unit :=
  match SegmentId.parseDirName parseUlid segmentId with
  | .error err => .error (invalidInput ("invalid segment id: " ++ err.display))
  | .ok _ => .ok ()

def encodeManifestPayload : ManifestRecord → Except IoError Bytes
  | .segmentSealed segment => do
    validateSegmentId parseUlid segment.segmentId segment.startMs segment.endMs
    let flags : UInt16 := if segment.walLsnBoundary.isSome then 1 else 0
    let segmentId ← writeString segment.segmentId
    return u16ToLe flags ++ (u16ToLe 0 ++ (u64ToLe segment.startMs ++ (u64ToLe segment.endMs ++
      (segmentId ++ segment.walLsnBoundary.elim [] u64ToLe))))
  | .segmentDeleted segmentId => do
    validateManifestSegmentName parseUlid segmentId
    writeString segmentId

def readWalLsnBoundary (flags : UInt16) : Reader (Option UInt64) :=
  if flags &&& 1 ≠ 0 then some <$> takeU64 manifestTruncated else pure none

def readManifestSegment : Reader ManifestRecord := do
  let flags ← takeU16 manifestTruncated
  ensure (flags &&& ~~~1 = 0) (invalidData "unsupported manifest segment flags")
  let _reserved ← takeU16 manifestTruncated
  let startMs ← takeU64 manifestTruncated
  let endMs ← takeU64 manifestTruncated
  let segmentId ← readString
  let walLsnBoundary ← readWalLsnBoundary flags
  lift (validateSegmentId parseUlid segmentId startMs endMs)
  return .segmentSealed ⟨segmentId, startMs, endMs, walLsnBoundary⟩

def readManifestDeletion : Reader ManifestRecord := do
  let segmentId ← readString
  lift (validateManifestSegmentName parseUlid segmentId)
  return .segmentDeleted segmentId

def readManifestPayload (recordType : UInt16) : Reader ManifestRecord :=
  if recordType = 1 then readManifestSegment parseUlid
  else if recordType = 2 then readManifestDeletion parseUlid
  else fail (invalidData "unknown manifest record type")

def decodeManifestPayload (recordType : UInt16) (payload : Bytes) : Except IoError ManifestRecord :=
  value (do
    let record ← readManifestPayload parseUlid recordType
    atEnd (invalidData "manifest record payload has trailing bytes")
    return record) payload

/-- The magic is `CMNF`; the record type is looked at only after the checksum. -/
def manifestFormat : LogFormat UInt16 ManifestRecord where
  subject := "manifest"
  magic := u32FromLe [67, 77, 78, 70]
  version := 1
  fromU16 := .ok
  decode := decodeManifestPayload parseUlid

theorem decodeManifestPayload_of_encode {record : ManifestRecord} {payload : Bytes}
    (h : encodeManifestPayload parseUlid record = .ok payload) :
    decodeManifestPayload parseUlid record.recordType payload = .ok record := by
  suffices hread : readManifestPayload parseUlid record.recordType payload = .ok (record, []) by
    simp only [decodeManifestPayload, value_ok, bind_ok, atEnd_ok, pure_ok]
    exact ⟨[], record, [], hread, (), [], ⟨rfl, rfl⟩, rfl, rfl⟩
  cases record with
  | segmentSealed segment =>
    simp only [encodeManifestPayload, except_bind_ok, except_pure_ok] at h
    obtain ⟨⟨⟩, hvalid, segmentId, hname, rfl⟩ := h
    change readManifestSegment parseUlid _ = _
    simp only [readManifestSegment, bind_ok, takeU16_ok, takeU64_ok, ensure_ok, exists_ensure, lift_ok,
      pure_ok]
    refine ⟨_, _, rfl, ?_, _, _, rfl, _, _, rfl, _, _, rfl, _, _, readString_of_writeString hname _,
      segment.walLsnBoundary, [], ?_, (), [], ⟨hvalid, rfl⟩, rfl, rfl⟩
    · split <;> decide
    · cases segment.walLsnBoundary <;> simp [readWalLsnBoundary, takeU64_ok]
  | segmentDeleted segmentId =>
    simp only [encodeManifestPayload, except_bind_ok] at h
    obtain ⟨⟨⟩, hvalid, hname⟩ := h
    have hread := readString_of_writeString hname []
    rw [append_nil] at hread
    change readManifestDeletion parseUlid _ = _
    simp only [readManifestDeletion, bind_ok, lift_ok, pure_ok]
    exact ⟨_, _, hread, (), [], ⟨hvalid, rfl⟩, rfl, rfl⟩

variable (crc32c : Bytes → UInt32) (crc32cAppend : UInt32 → Bytes → UInt32)

def encodeManifestRecord (record : ManifestRecord) : Except IoError Bytes := do
  let payload ← encodeManifestPayload parseUlid record
  encodeLogRecord crc32c crc32cAppend (manifestFormat parseUlid) record.recordType payload

def readManifestRecord : Reader (Option ManifestRecord) :=
  readLogRecord crc32c crc32cAppend (manifestFormat parseUlid)

theorem isFrame_encodeManifestRecord {record : ManifestRecord} {frame : Bytes}
    (h : encodeManifestRecord parseUlid crc32c crc32cAppend record = .ok frame) :
    IsFrame (readManifestRecord parseUlid crc32c crc32cAppend) shortRead record frame := by
  obtain ⟨payload, hpayload, hencode⟩ := except_bind_ok.mp h
  exact isFrame_of_encodeLogRecord hencode rfl (decodeManifestPayload_of_encode parseUlid hpayload)

end Manifest

theorem log_reads_back_to_cut (parseUlid : String → Option (BitVec 128)) (crc32c : Bytes → UInt32)
    (crc32cAppend : UInt32 → Bytes → UInt32) (k : Nat) :
    (∀ records frames,
      Forall₂ (fun record frame => writeWalRecord crc32c crc32cAppend record = .ok frame)
        records frames →
      Recovers (readWalRecord crc32c crc32cAppend) (·.kind = .unexpectedEof) records frames k) ∧
    ∀ records frames,
      Forall₂ (fun record frame =>
        encodeManifestRecord parseUlid crc32c crc32cAppend record = .ok frame) records frames →
      Recovers (readManifestRecord parseUlid crc32c crc32cAppend) (·.kind = .unexpectedEof)
        records frames k := by
  constructor
  · intro records frames h
    have hframes := h.imp fun _ _ => isFrame_writeWalRecord crc32c crc32cAppend
    refine recovers rfl ?_ hframes k
    rfl
  intro records frames h
  have hframes := h.imp fun _ _ => isFrame_encodeManifestRecord parseUlid crc32c crc32cAppend
  refine recovers rfl ?_ hframes k
  rfl

/-- Two records of each log, cut in the second. -/
theorem log_reads_back_to_cut_second :
    let wal : List Bytes := [
      [67, 87, 65, 76, 1, 0, 2, 0, 1, 0, 0, 0, 0, 0, 0, 0, 7, 0, 0, 0, 0],
      [67, 87, 65, 76, 1, 0, 1, 0, 2, 0, 0, 0, 0, 0, 0, 0, 5, 6, 0, 0, 0, 0]]
    let manifest : List Bytes := [
      [67, 77, 78, 70, 1, 0, 2, 0, 11, 0, 0, 0, 0, 0, 0, 0, 9, 0, 115, 101, 103, 45, 49, 45, 50, 45,
        85, 0, 0, 0, 0],
      [67, 77, 78, 70, 1, 0, 1, 0, 39, 0, 0, 0, 0, 0, 0, 0, 1, 0, 0, 0, 1, 0, 0, 0, 0, 0, 0, 0, 2, 0,
        0, 0, 0, 0, 0, 0, 9, 0, 115, 101, 103, 45, 49, 45, 50, 45, 85, 5, 0, 0, 0, 0, 0, 0, 0, 0, 0,
        0, 0]]
    (∃ e, e.kind = .unexpectedEof ∧ Drains (readWalRecord (fun _ => 0) fun _ _ => 0)
      (wal.flatten.take 40) [⟨.checkpoint, [7]⟩] (.error e)) ∧
    ∃ e, e.kind = .unexpectedEof ∧
      Drains (readManifestRecord (fun _ => some 0) (fun _ => 0) fun _ _ => 0)
        (manifest.flatten.take 40) [.segmentDeleted "seg-1-2-U"] (.error e) := by
  intro wal manifest
  obtain ⟨hwal, hmanifest⟩ := log_reads_back_to_cut (fun _ => some 0) (fun _ => 0) (fun _ _ => 0) 40
  have hrecords := hwal [⟨.checkpoint, [7]⟩, ⟨.otlpBatch, [5, 6]⟩] wal
    (.cons (by decide +kernel) (.cons (by decide +kernel) .nil))
  have hentries := hmanifest [.segmentDeleted "seg-1-2-U", .segmentSealed ⟨"seg-1-2-U", 1, 2, some 5⟩]
    manifest (.cons (by decide +kernel) (.cons (by decide +kernel) .nil))
  constructor
  · refine hrecords.cut (i := 1) (by decide) (by decide) (by decide) ?_
    rintro (_ | _ | j) <;> simp [wal, boundary]
  · refine hentries.cut (i := 1) (by decide) (by decide) (by decide) ?_
    rintro (_ | _ | j) <;> simp [manifest, boundary]

end Chronoxide
