import Chronoxide.Chunk.Types

/-! The fixed chunk header and the record it frames: header, scalar lane, payload
(`decode_chunk_header`, `decode_chunk_payload`). -/

namespace Chronoxide
open Codec Parser List

structure DecodedChunkHeader where
  kind : ChunkKind
  encoding : ChunkEncoding
  flags : UInt16
  seriesRef : UInt32
  minTimeMs : UInt64
  maxTimeMs : UInt64
  numPoints : UInt32
  headerLen : Nat
  payloadLen : Nat
  chunkCrc : UInt32
  deriving DecidableEq, Repr

structure DecodedChunkPayload where
  kind : ChunkKind
  encoding : ChunkEncoding
  flags : UInt16
  seriesRef : UInt32
  minTimeMs : UInt64
  maxTimeMs : UInt64
  numPoints : UInt32
  payload : Bytes
  deriving DecidableEq, Repr

def encodeChunkHeader (h : DecodedChunkHeader) : Bytes :=
  h.kind.toU8 :: h.encoding.toU8 :: (u16ToLe h.flags ++ (u32ToLe h.seriesRef ++
    (u64ToLe h.minTimeMs ++ (u64ToLe h.maxTimeMs ++ (u32ToLe h.numPoints ++
      (u32ToLe (UInt32.ofNat h.headerLen) ++ (u32ToLe (UInt32.ofNat h.payloadLen) ++
        u32ToLe h.chunkCrc)))))))

theorem encodeChunkHeader_length (h : DecodedChunkHeader) :
    (encodeChunkHeader h).length = chunkHeaderLen := by
  simp [encodeChunkHeader, chunkHeaderLen]

def chunkHeaderShort : IoError := unexpectedEof "chunk header short read"

-- After the length check the fields are slices of the forty bytes and cannot come up short.
def decodeChunkHeader : Reader DecodedChunkHeader := do
  let available ← Parser.remaining
  Parser.ensure (chunkHeaderLen ≤ available) chunkHeaderShort
  let kind ← Parser.lift (chunkKindFromU8 (← Parser.next chunkHeaderShort))
  let encoding ← Parser.lift (chunkEncodingFromU8 (← Parser.next chunkHeaderShort))
  let flags ← takeU16 chunkHeaderShort
  let seriesRef ← takeU32 chunkHeaderShort
  let minTimeMs ← takeU64 chunkHeaderShort
  let maxTimeMs ← takeU64 chunkHeaderShort
  let numPoints ← takeU32 chunkHeaderShort
  let headerLen ← takeU32 chunkHeaderShort
  let payloadLen ← takeU32 chunkHeaderShort
  let chunkCrc ← takeU32 chunkHeaderShort
  Parser.ensure (headerLen.toNat + payloadLen.toNat < 2 ^ 64)
    (invalidData "chunk record length overflows")
  return { kind, encoding, flags, seriesRef, minTimeMs, maxTimeMs, numPoints,
           headerLen := headerLen.toNat, payloadLen := payloadLen.toNat, chunkCrc }

theorem decodeChunkHeader_ok {bs rest : Bytes} {h : DecodedChunkHeader} :
    decodeChunkHeader bs = .ok (h, rest) ↔
      (h.headerLen < 2 ^ 32 ∧ h.payloadLen < 2 ^ 32) ∧ bs = encodeChunkHeader h ++ rest := by
  simp only [decodeChunkHeader, bind_ok, remaining_ok, ensure_ok, exists_ensure, next_ok, lift_ok,
    chunkKindFromU8_ok, chunkEncodingFromU8_ok, takeU16_ok, takeU32_ok, takeU64_ok, pure_ok]
  constructor
  · rintro ⟨_, _, ⟨rfl, rfl⟩, -, _, _, rfl, kind, _, ⟨rfl, rfl⟩, _, _, rfl, encoding, _, ⟨rfl, rfl⟩,
      flags, _, rfl, series, _, rfl, min, _, rfl, max, _, rfl, points, _, rfl, hlen, _, rfl, plen, _,
      rfl, crc, _, rfl, -, rfl, rfl⟩
    refine ⟨⟨hlen.toNat_lt, plen.toNat_lt⟩, ?_⟩
    simp [encodeChunkHeader]
  rintro ⟨⟨hh, hp⟩, rfl⟩
  have hlen := encodeChunkHeader_length h
  have hh' : (UInt32.ofNat h.headerLen).toNat = h.headerLen := UInt32.toNat_ofNat_of_lt' hh
  have hp' : (UInt32.ofNat h.payloadLen).toNat = h.payloadLen := UInt32.toNat_ofNat_of_lt' hp
  refine ⟨_, _, ⟨rfl, rfl⟩, by rw [length_append]; omega, ?_⟩
  exact ⟨_, _, rfl, _, _, ⟨rfl, rfl⟩, _, _, rfl, _, _, ⟨rfl, rfl⟩, _, _, rfl, _, _, rfl, _, _, rfl,
    _, _, rfl, _, _, rfl, _, _, rfl, _, _, rfl, _, _, rfl, by omega, by rw [hh', hp'], rfl⟩

-- `payload[header_len..record_len]`; the bytes between the fixed header and it are the lane.
def decodeChunkPayloadFrom (crc32c : Bytes → UInt32) : Reader DecodedChunkPayload := do
  let total ← Parser.remaining
  let decoded ← decodeChunkHeader
  Parser.ensure (decoded.headerLen + decoded.payloadLen < 2 ^ 64)
    (invalidData "chunk length overflows")
  Parser.ensure (chunkHeaderLen ≤ decoded.headerLen ∧
      decoded.headerLen + decoded.payloadLen = total)
    (invalidData "chunk payload length is not exact")
  let _lane ← Parser.takeN (decoded.headerLen - chunkHeaderLen) chunkHeaderShort
  let payload ← Parser.takeN decoded.payloadLen chunkHeaderShort
  Parser.ensure (crc32c payload = decoded.chunkCrc) (invalidData "chunk crc mismatch")
  return { kind := decoded.kind, encoding := decoded.encoding, flags := decoded.flags,
           seriesRef := decoded.seriesRef, minTimeMs := decoded.minTimeMs,
           maxTimeMs := decoded.maxTimeMs, numPoints := decoded.numPoints, payload }

def decodeChunkPayload (crc32c : Bytes → UInt32) (payload : Bytes) :
    Except IoError DecodedChunkPayload :=
  Parser.value (decodeChunkPayloadFrom crc32c) payload

def slice (bytes : Bytes) (start stop : Nat) : Bytes := (bytes.take stop).drop start

section Record
variable {crc32c : Bytes → UInt32} {bs lane : Bytes} {d : DecodedChunkPayload}

def recordHeader (crc32c : Bytes → UInt32) (d : DecodedChunkPayload) (lane : Bytes) :
    DecodedChunkHeader :=
  { kind := d.kind, encoding := d.encoding, flags := d.flags, seriesRef := d.seriesRef,
    minTimeMs := d.minTimeMs, maxTimeMs := d.maxTimeMs, numPoints := d.numPoints,
    headerLen := chunkHeaderLen + lane.length, payloadLen := d.payload.length,
    chunkCrc := crc32c d.payload }

def encodeChunkRecord (crc32c : Bytes → UInt32) (d : DecodedChunkPayload) (lane : Bytes) : Bytes :=
  encodeChunkHeader (recordHeader crc32c d lane) ++ (lane ++ d.payload)

def RecordFits (d : DecodedChunkPayload) (lane : Bytes) : Prop :=
  chunkHeaderLen + lane.length < 2 ^ 32 ∧ d.payload.length < 2 ^ 32

theorem encodeChunkRecord_length :
    (encodeChunkRecord crc32c d lane).length = chunkHeaderLen + lane.length + d.payload.length := by
  rw [encodeChunkRecord, length_append, length_append, encodeChunkHeader_length]
  omega

theorem decodeChunkHeader_record (h : RecordFits d lane) :
    decodeChunkHeader.value (encodeChunkRecord crc32c d lane) = .ok (recordHeader crc32c d lane) :=
  value_ok.mpr ⟨_, decodeChunkHeader_ok.mpr ⟨h, rfl⟩⟩

theorem slice_lane :
    slice (encodeChunkRecord crc32c d lane) chunkHeaderLen
      (recordHeader crc32c d lane).headerLen = lane := by
  have hlen := encodeChunkHeader_length (recordHeader crc32c d lane)
  have htake : (encodeChunkHeader (recordHeader crc32c d lane) ++ lane).length =
      (recordHeader crc32c d lane).headerLen := by
    rw [length_append, hlen]
    rfl
  rw [slice, encodeChunkRecord, ← append_assoc, take_left' htake, drop_left' hlen]

theorem decodeChunkPayload_ok :
    decodeChunkPayload crc32c bs = .ok d ↔
      ∃ lane, RecordFits d lane ∧ bs = encodeChunkRecord crc32c d lane := by
  rw [decodeChunkPayload, value_ok]
  simp only [decodeChunkPayloadFrom, bind_ok, remaining_ok, decodeChunkHeader_ok,
    ensure_ok, exists_ensure, takeN_ok, pure_ok]
  constructor
  · rintro ⟨_, _, _, ⟨rfl, rfl⟩, h, _, ⟨⟨hh, hp⟩, rfl⟩, -, ⟨hmin, htotal⟩, lane, _, ⟨hlane, rfl⟩,
      payload, rest, ⟨hpayload, rfl⟩, hcrc, rfl, rfl⟩
    simp only [length_append, encodeChunkHeader_length] at htotal
    obtain rfl : rest = [] := length_eq_zero_iff.mp (by omega)
    have hheader : chunkHeaderLen + lane.length = h.headerLen := by omega
    refine ⟨lane, ⟨by omega, by simpa [hpayload] using hp⟩, ?_⟩
    rw [encodeChunkRecord, recordHeader, hheader, append_nil, hpayload, hcrc]
  rintro ⟨lane, ⟨hh, hp⟩, rfl⟩
  refine ⟨[], _, _, ⟨rfl, rfl⟩, recordHeader crc32c d lane, lane ++ d.payload,
    ⟨⟨hh, hp⟩, rfl⟩, by simp only [recordHeader]; omega, ⟨by simp only [recordHeader]; omega, ?_⟩,
    lane, d.payload, ⟨by simp only [recordHeader]; omega, rfl⟩, d.payload, [],
    ⟨rfl, (append_nil _).symm⟩, rfl, rfl, rfl⟩
  rw [encodeChunkRecord_length]
  rfl

end Record

end Chronoxide
