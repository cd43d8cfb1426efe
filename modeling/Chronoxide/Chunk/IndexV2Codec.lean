import Chronoxide.Chunk.IndexV2

/-! The chunk index is canonical: the decoders accept exactly what the encoder writes. -/

namespace Chronoxide
open Codec List UInt32 Nat

instance uint32LtTrans : IsTrans UInt32 (· < ·) := ⟨fun _ _ _ => UInt32.lt_trans⟩

/-- What the check of an entry accepts, whatever kind of error it reports. -/
structure OverflowChunkEntryV1.Valid (entry : OverflowChunkEntryV1) : Prop where
  file : entry.fileId ≤ 1
  times : entry.minTimeMs ≤ entry.maxTimeMs
  header : chunkHeaderLen ≤ entry.length.toNat
  range : entry.offset.toNat + entry.length.toNat < 2 ^ 64
  lane : entry.scalarLaneOffset = 0 ∧ entry.scalarLaneLen = 0 ∨
    entry.scalarLaneOffset.toNat = chunkHeaderLen ∧
      typedScalarLaneHeaderLen ≤ entry.scalarLaneLen.toNat ∧ isTypedKind entry.kind ∧
      entry.scalarLaneOffset.toNat + entry.scalarLaneLen.toNat ≤ entry.length.toNat

variable {entry : OverflowChunkEntryV1}

theorem validateOverflowChunkEntryV1_ok {errorKind : ErrorKind}
    {u : Unit} : validateOverflowChunkEntryV1 entry errorKind = .ok u ↔ entry.Valid := by
  unfold validateOverflowChunkEntryV1
  simp only [except_bind_ok, require_ok, exists_const]
  constructor
  · rintro ⟨hfile, htimes, hheader, hrange, hlane⟩
    refine ⟨hfile, htimes, hheader, hrange, ?_⟩
    split at hlane
    · exact .inl ‹_›
    split at hlane
    · rename_i hcanonical
      simp only [except_bind_ok, require_ok, exists_const] at hlane
      exact .inr ⟨hcanonical.1, hcanonical.2, hlane.1, hlane.2.2⟩
    · cases hlane
  rintro ⟨hfile, htimes, hheader, hrange, hlane⟩
  refine ⟨hfile, htimes, hheader, hrange, ?_⟩
  rcases hlane with hnone | ⟨hoffset, hlen, hkind, hend⟩
  · rw [if_pos hnone]
    rfl
  have hsome : ¬(entry.scalarLaneOffset = 0 ∧ entry.scalarLaneLen = 0) := by
    rintro ⟨hzero, -⟩
    rw [hzero] at hoffset
    cases hoffset
  rw [if_neg hsome, if_pos ⟨hoffset, hlen⟩]
  have hlength := entry.length.toNat_lt
  simp only [except_bind_ok, require_ok, exists_const]
  exact ⟨hkind, by omega, hend⟩

variable {entries : List OverflowChunkEntryV1}

theorem validateEntryOrder_ok {errorKind : ErrorKind}
    {u : Unit} : validateEntryOrder entries errorKind = .ok u ↔
      (∀ entry ∈ entries, entry.Valid) ∧
        Ascending.From none (entries.map overflowEntryOrderKey) := by
  unfold validateEntryOrder
  simp only [except_bind_ok, except_pure_ok, and_true, Ascending.foldlM_step_ok,
    validateOverflowChunkEntryV1_ok]

variable {bytes : Bytes}

theorem eq_overflowChunkEntryBytes_iff :
    bytes = overflowChunkEntryBytes entry ↔ bytes.length = overflowChunkEntryV1Len ∧
      readU8At bytes 0 = entry.fileId ∧ readU8At bytes 1 = entry.kind.toU8 ∧
      readU16At bytes 2 = 0 ∧ readU64At bytes 4 = entry.minTimeMs ∧
      readU64At bytes 12 = entry.maxTimeMs ∧ readU64At bytes 20 = entry.offset ∧
      readU32At bytes 28 = entry.length ∧ readU32At bytes 32 = entry.scalarLaneOffset ∧
      readU32At bytes 36 = entry.scalarLaneLen ∧
      readU32At bytes 40 = entry.indexedPrefixCrc32c := by
  unfold overflowChunkEntryBytes overflowChunkEntryV1Len
  rw [eq_flatten_iff]
  simp only [map_cons, map_nil, sum_cons, sum_nil, FieldsAt, and_true,
    length_singleton, u16ToLe_length, u32ToLe_length, u64ToLe_length, Nat.reduceAdd]
  refine and_congr_right fun hlen => ?_
  simp (disch := omega) only [readU8At_eq_iff, readU16At_eq_iff, readU32At_eq_iff, readU64At_eq_iff]

theorem overflowChunkEntryBytes_length (entry : OverflowChunkEntryV1) :
    (overflowChunkEntryBytes entry).length = overflowChunkEntryV1Len :=
  (eq_overflowChunkEntryBytes_iff.mp rfl).1

theorem overflowChunkKindFromU8_ok {b : UInt8} {kind : ChunkKind} :
    overflowChunkKindFromU8 b = .ok kind ↔ b = kind.toU8 :=
  decodeChunkEnum_ok (fun kind => by cases kind <;> decide) ChunkKind.toU8_injective

theorem decodeOverflowChunkEntryV1_ok :
    decodeOverflowChunkEntryV1 bytes = .ok entry ↔
      entry.Valid ∧ bytes = overflowChunkEntryBytes entry := by
  unfold decodeOverflowChunkEntryV1
  simp only [except_bind_ok, requireExactLen_ok, require_ok, exists_const, except_pure_ok,
    overflowChunkKindFromU8_ok, validateOverflowChunkEntryV1_ok, eq_overflowChunkEntryBytes_iff]
  constructor
  · rintro ⟨hlen, hreserved, kind, hkind, hvalid, rfl⟩
    exact ⟨hvalid, hlen, rfl, hkind, hreserved, rfl, rfl, rfl, rfl, rfl, rfl, rfl⟩
  rintro ⟨hvalid, hlen, hfile, hkind, hreserved, hmin, hmax, hoffset, hlength, hlane, hlaneLen,
    hcrc⟩
  refine ⟨hlen, hreserved, entry.kind, hkind, ?_⟩
  rw [hfile, hmin, hmax, hoffset, hlength, hlane, hlaneLen, hcrc]
  exact ⟨hvalid, rfl⟩

section
variable {σ : Type} {visit : σ → OverflowChunkEntryV1 → Except IoError σ}
  {entries : List OverflowChunkEntryV1} {previous : Option OverflowOrderKey} {count : Nat}

def lastKey (previous : Option OverflowOrderKey) (entries : List OverflowChunkEntryV1) :
    Option OverflowOrderKey :=
  entries.foldl (fun _ entry => some (overflowEntryOrderKey entry)) previous

theorem foldlM_visitEntry (hvalid : ∀ entry ∈ entries, entry.Valid)
    (hfrom : Ascending.From previous (entries.map overflowEntryOrderKey))
    (hcount : count + entries.length < 2 ^ 32) (state : σ) :
    (entries.map overflowChunkEntryBytes).foldlM (visitEntry visit) (previous, count, state) =
      (entries.foldlM visit state).map fun visited =>
        (lastKey previous entries, count + entries.length, visited) := by
  induction entries generalizing previous count state with
  | nil => rfl
  | cons entry entries ih =>
    obtain ⟨hentry, hentries⟩ := forall_mem_cons.mp hvalid
    obtain ⟨hless, hrest⟩ := hfrom
    rw [length_cons] at hcount
    have hdecode := decodeOverflowChunkEntryV1_ok.mpr ⟨hentry, rfl⟩
    have hstep : visitEntry visit (previous, count, state) (overflowChunkEntryBytes entry) =
        (visit state entry).map fun visited =>
          (some (overflowEntryOrderKey entry), count + 1, visited) := by
      unfold visitEntry
      rw [hdecode]
      simp only [bind, Except.bind, require_pos hless, require_pos (show count + 1 < 2 ^ 32 by omega)]
      cases visit state entry <;> rfl
    rw [map_cons, foldlM_cons, foldlM_cons, hstep]
    cases hvisit : visit state entry with
    | error error => rfl
    | ok visited =>
      have hnext : (entries.map overflowChunkEntryBytes).foldlM (visitEntry visit)
          (some (overflowEntryOrderKey entry), count + 1, visited) = _ :=
        ih hentries hrest (by omega) visited
      rw [add_right_comm] at hnext
      exact hnext

theorem foldlM_visitEntry_push {chunks : List Bytes} {collected : List OverflowChunkEntryV1}
    {last : Option OverflowOrderKey × Nat × List OverflowChunkEntryV1}
    (h : chunks.foldlM (visitEntry pushOverflowEntry) (previous, count, collected) = .ok last) :
    ∃ entries, chunks = entries.map overflowChunkEntryBytes ∧ (∀ entry ∈ entries, entry.Valid) ∧
      Ascending.From previous (entries.map overflowEntryOrderKey) ∧
      last.2 = (count + entries.length, collected ++ entries) := by
  induction chunks generalizing previous count collected with
  | nil =>
    obtain rfl := Except.ok.inj h
    exact ⟨[], rfl, by simp, trivial, by simp⟩
  | cons chunk chunks ih =>
    rw [foldlM_cons, except_bind_ok] at h
    obtain ⟨next, hstep, hrest⟩ := h
    unfold visitEntry pushOverflowEntry at hstep
    simp only [except_bind_ok, require_ok, exists_const, except_pure_ok, Except.ok.injEq,
      decodeOverflowChunkEntryV1_ok, exists_eq_left'] at hstep
    obtain ⟨entry, ⟨hvalid, rfl⟩, hless, -, rfl⟩ := hstep
    obtain ⟨entries, rfl, hentries, hfrom, hlast⟩ := ih hrest
    refine ⟨entry :: entries, rfl, forall_mem_cons.mpr ⟨hvalid, hentries⟩, ⟨hless, hfrom⟩, ?_⟩
    rw [hlast, length_cons, append_assoc, add_right_comm]
    rfl

end

structure ChunkOverflowBlobV1.Valid (blob : ChunkOverflowBlobV1) : Prop where
  nonempty : blob.entries ≠ []
  entries : ∀ entry ∈ blob.entries, entry.Valid
  ordered : (blob.entries.map overflowEntryOrderKey).Pairwise (· < ·)

def ChunkOverflowBlobV1.size (blob : ChunkOverflowBlobV1) : Nat :=
  blob.entries.length * overflowChunkEntryV1Len + chunkOverflowBlobV1HeaderLen

theorem checkedChunkOverflowBlobLen_eq_some {chunkCount blobLen : UInt32} :
    checkedChunkOverflowBlobLen chunkCount = some blobLen ↔
      blobLen.toNat = chunkCount.toNat * overflowChunkEntryV1Len + chunkOverflowBlobV1HeaderLen := by
  unfold checkedChunkOverflowBlobLen
  dsimp only
  split
  · rename_i hlt
    rw [Option.some.injEq, ← UInt32.toNat_inj, UInt32.toNat_ofNat_of_lt' hlt, eq_comm]
  rename_i hge
  have hlt := blobLen.toNat_lt
  simp only [reduceCtorEq, false_iff]
  omega

variable (seriesRef chunkCount bodyLen : UInt32)

def blobFront : Bytes :=
  [u32ToLe chunkOverflowBlobMagic, u16ToLe chunkOverflowBlobVersionV1, u16ToLe 0,
    u32ToLe (UInt32.ofNat chunkOverflowBlobV1HeaderLen), u32ToLe seriesRef, u32ToLe chunkCount,
    u32ToLe 0, u32ToLe bodyLen].flatten

theorem blobFront_length : (blobFront seriesRef chunkCount bodyLen).length = blobCrcOffset := by
  simp [blobFront, blobCrcOffset]

theorem blobHeader_eq (seriesRef chunkCount bodyLen blobCrc32c : UInt32) :
    blobHeader seriesRef chunkCount bodyLen blobCrc32c =
      blobFront seriesRef chunkCount bodyLen ++ u32ToLe blobCrc32c := by
  simp [blobHeader, blobFront]

def blobOver (crc : Crc32c) (seriesRef chunkCount : UInt32) (body : Bytes) : Bytes :=
  let bodyLen := UInt32.ofNat body.length
  blobFront seriesRef chunkCount bodyLen ++
    (u32ToLe (crc.crc32c (blobFront seriesRef chunkCount bodyLen ++ (u32ToLe 0 ++ body))) ++ body)

def blobBody (blob : ChunkOverflowBlobV1) : Bytes :=
  (blob.entries.map overflowChunkEntryBytes).flatten

def blobBytes (crc : Crc32c) (blob : ChunkOverflowBlobV1) : Bytes :=
  blobOver crc blob.seriesRef (UInt32.ofNat blob.entries.length) (blobBody blob)

theorem blobOver_length (crc : Crc32c) (seriesRef chunkCount : UInt32) (body : Bytes) :
    (blobOver crc seriesRef chunkCount body).length =
      body.length + chunkOverflowBlobV1HeaderLen := by
  simp only [blobOver, length_append, blobFront_length, u32ToLe_length, blobCrcOffset,
    chunkOverflowBlobV1HeaderLen]
  omega

theorem blobBody_length (blob : ChunkOverflowBlobV1) :
    (blobBody blob).length = blob.entries.length * overflowChunkEntryV1Len := by
  unfold blobBody
  induction blob.entries with
  | nil => rfl
  | cons entry entries ih =>
    rw [map_cons, flatten_cons, length_append, overflowChunkEntryBytes_length, ih,
      length_cons, succ_mul, add_comm]

theorem blobBytes_length (crc : Crc32c) (blob : ChunkOverflowBlobV1) :
    (blobBytes crc blob).length = blob.size := by
  rw [blobBytes, blobOver_length, blobBody_length, ChunkOverflowBlobV1.size]

theorem sub_headerLen {blobLen : UInt32} {n : Nat}
    (h : blobLen.toNat = n + chunkOverflowBlobV1HeaderLen) :
    blobLen - UInt32.ofNat chunkOverflowBlobV1HeaderLen = UInt32.ofNat n := by
  have hlt := blobLen.toNat_lt
  have hle : UInt32.ofNat chunkOverflowBlobV1HeaderLen ≤ blobLen := by
    rw [UInt32.le_iff_toNat_le, h]
    exact Nat.le_add_left _ _
  rw [h] at hlt
  have hn : n < 2 ^ 32 := (Nat.le_add_right _ _).trans_lt hlt
  rw [← UInt32.toNat_inj, UInt32.toNat_sub_of_le _ _ hle, h, UInt32.toNat_ofNat_of_lt' hn]
  exact Nat.add_sub_cancel ..

theorem foldlM_encodeEntry {out bytes : Bytes} :
    entries.foldlM (fun out entry => encodeOverflowChunkEntryV1 entry out) out = .ok bytes ↔
      (∀ entry ∈ entries, entry.Valid) ∧
        bytes = out ++ (entries.map overflowChunkEntryBytes).flatten := by
  induction entries generalizing out with
  | nil =>
    rw [foldlM_nil, except_pure_ok]
    simp [eq_comm]
  | cons entry entries ih =>
    simp only [foldlM_cons, encodeOverflowChunkEntryV1, except_bind_ok,
      validateOverflowChunkEntryV1_ok, except_pure_ok, exists_const, forall_mem_cons]
    constructor
    · rintro ⟨_, ⟨hvalid, rfl⟩, hrest⟩
      obtain ⟨hentries, rfl⟩ := ih.mp hrest
      exact ⟨⟨hvalid, hentries⟩, by simp⟩
    · rintro ⟨⟨hvalid, hentries⟩, rfl⟩
      exact ⟨_, ⟨hvalid, rfl⟩, ih.mpr ⟨hentries, by simp⟩⟩

variable {blob : ChunkOverflowBlobV1}

/-- A valid blob of a series of the file whose length fits its header. -/
structure ChunkOverflowBlobV1.Stored (blob : ChunkOverflowBlobV1) (seriesCount : UInt32) : Prop where
  series : blob.seriesRef < seriesCount
  valid : blob.Valid
  size_lt : blob.size < 2 ^ 32

section
variable (h : blob.size < 2 ^ 32)
include h

theorem toNat_size : (ofNat blob.size).toNat = blob.size :=
  toNat_ofNat_of_lt' h

theorem length_entries_lt : blob.entries.length < 2 ^ 32 := by
  unfold ChunkOverflowBlobV1.size overflowChunkEntryV1Len at h
  omega

theorem toNat_entryCount : (ofNat blob.entries.length).toNat = blob.entries.length :=
  toNat_ofNat_of_lt' (length_entries_lt h)

theorem entryCount_ne_zero : UInt32.ofNat blob.entries.length ≠ 0 ↔ blob.entries ≠ [] := by
  rw [Ne, ← UInt32.toNat_inj, toNat_entryCount h]
  exact not_congr length_eq_zero_iff

end

variable {seriesCount : UInt32} {crc : Crc32c}

theorem encodeChunkOverflowBlobV1_ok :
    encodeChunkOverflowBlobV1 crc blob seriesCount = .ok bytes ↔
      blob.Stored seriesCount ∧ bytes = blobBytes crc blob := by
  have hbytes : ∀ bodyLen, bodyLen = ofNat (blobBody blob).length →
      overwrite (blobHeader blob.seriesRef (ofNat blob.entries.length) bodyLen 0 ++
          blobBody blob) blobCrcOffset
        (u32ToLe (crc.crc32c (blobHeader blob.seriesRef (ofNat blob.entries.length) bodyLen 0 ++
          blobBody blob))) = blobBytes crc blob := by
    rintro _ rfl
    rfl
  unfold encodeChunkOverflowBlobV1
  simp only [except_bind_ok, require_ok, exists_const, okOr_ok, checkedChunkOverflowBlobLen_eq_some,
    validateEntryOrder_ok, Ascending.from_none_iff, foldlM_encodeEntry, except_pure_ok]
  constructor
  · rintro ⟨hseries, hcount, hne, blobLen, hlen, ⟨hvalid, hordered⟩, _, ⟨-, rfl⟩, rfl⟩
    rw [toNat_ofNat_of_lt' hcount] at hlen
    have hsize : blob.size < 2 ^ 32 := by
      rw [ChunkOverflowBlobV1.size, ← hlen]
      exact blobLen.toNat_lt
    refine ⟨⟨hseries, ⟨(entryCount_ne_zero hsize).mp hne, hvalid, hordered⟩, hsize⟩, ?_⟩
    exact hbytes _ (by rw [sub_headerLen hlen, blobBody_length])
  · rintro ⟨⟨hseries, hblob, hsize⟩, rfl⟩
    refine ⟨hseries, length_entries_lt hsize, (entryCount_ne_zero hsize).mpr hblob.nonempty,
      ofNat blob.size, ?_, ⟨hblob.entries, hblob.ordered⟩, _, ⟨hblob.entries, rfl⟩, ?_⟩
    · rw [toNat_entryCount hsize, toNat_size hsize, ChunkOverflowBlobV1.size]
    · exact hbytes _ (by rw [sub_headerLen (toNat_size hsize), blobBody_length])

theorem eq_blobHeader_iff {header : Bytes} {seriesRef chunkCount bodyLen blobCrc32c : UInt32} :
    header = blobHeader seriesRef chunkCount bodyLen blobCrc32c ↔
      header.length = chunkOverflowBlobV1HeaderLen ∧ readU32At header 0 = chunkOverflowBlobMagic ∧
      readU16At header 4 = chunkOverflowBlobVersionV1 ∧ readU16At header 6 = 0 ∧
      readU32At header 8 = UInt32.ofNat chunkOverflowBlobV1HeaderLen ∧
      readU32At header 12 = seriesRef ∧ readU32At header 16 = chunkCount ∧
      readU32At header 20 = 0 ∧ readU32At header 24 = bodyLen ∧
      readU32At header blobCrcOffset = blobCrc32c := by
  unfold blobHeader blobCrcOffset
  rw [eq_flatten_iff]
  simp only [map_cons, map_nil, sum_cons, sum_nil, FieldsAt, and_true,
    u16ToLe_length, u32ToLe_length, Nat.reduceAdd]
  refine and_congr_right fun hlen => ?_
  simp (disch := omega) only [readU16At_eq_iff, readU32At_eq_iff]

theorem validate_append {header body : Bytes} {validated : ValidatedChunkOverflowBlobBytes}
    (hheader : header.length = chunkOverflowBlobV1HeaderLen) :
    validateChunkOverflowBlobBytesV1 crc (header ++ body) seriesCount = .ok validated ↔
      readU32At header 16 ≠ 0 ∧
      body.length = (readU32At header 16).toNat * overflowChunkEntryV1Len ∧
      body.length + chunkOverflowBlobV1HeaderLen < 2 ^ 32 ∧
      readU32At header 24 = ofNat body.length ∧
      crc.crc32c (overwrite header blobCrcOffset (u32ToLe 0) ++ body) =
        readU32At header blobCrcOffset ∧
      readU32At header 0 = chunkOverflowBlobMagic ∧
      readU16At header 4 = chunkOverflowBlobVersionV1 ∧ readU16At header 6 = 0 ∧
      readU32At header 8 = ofNat chunkOverflowBlobV1HeaderLen ∧
      readU32At header 12 < seriesCount ∧ readU32At header 20 = 0 ∧
      validated = ⟨readU32At header 12, readU32At header 16, body⟩ := by
  have hsmall : header.length = 32 := hheader
  have hcrc : blobCrcOffset = 28 := rfl
  have hdrop : (header ++ body).drop chunkOverflowBlobV1HeaderLen = body := by
    rw [← hheader, drop_left]
  have htake : (header ++ body).take chunkOverflowBlobV1HeaderLen = header := by
    rw [← hheader, take_left]
  unfold validateChunkOverflowBlobBytesV1
  simp only [except_bind_ok, require_ok, exists_const, okOr_ok, checkedChunkOverflowBlobLen_eq_some,
    requireExactLen_ok, except_pure_ok, hdrop, htake, crc.append_crc32c, length_append, hheader]
  simp (disch := omega) only [readU32At_append_left, readU16At_append_left]
  constructor
  · rintro ⟨-, hcount, blobLen, hlen, -, hexact, hbody, hstored, hmagic, hversion, hflags,
      hheaderLen, hseries, hreserved, rfl⟩
    have hlength : body.length = (readU32At header 16).toNat * overflowChunkEntryV1Len := by omega
    rw [add_comm] at hexact
    refine ⟨hcount, hlength, hexact ▸ blobLen.toNat_lt, ?_, hstored, hmagic, hversion, hflags,
      hheaderLen, hseries, hreserved, rfl⟩
    rw [hbody, sub_headerLen hexact.symm]
  rintro ⟨hcount, hlength, hbound, hbody, hstored, hmagic, hversion, hflags, hheaderLen, hseries,
    hreserved, rfl⟩
  have hblobLen : (ofNat (body.length + chunkOverflowBlobV1HeaderLen)).toNat =
      body.length + chunkOverflowBlobV1HeaderLen := toNat_ofNat_of_lt' hbound
  refine ⟨le_add_right _ _, hcount, _, hblobLen.trans (by rw [hlength]), ?_, ?_, ?_, hstored,
    hmagic, hversion, hflags, hheaderLen, hseries, hreserved, rfl⟩
  · rw [hblobLen]
    exact le_add_left _ _
  · rw [hblobLen, add_comm]
  · rw [sub_headerLen hblobLen, hbody]

theorem blobOver_eq (crc : Crc32c) (seriesRef chunkCount : UInt32) (body : Bytes) :
    blobOver crc seriesRef chunkCount body = blobHeader seriesRef chunkCount
      (ofNat body.length) (crc.crc32c (blobHeader seriesRef chunkCount
        (ofNat body.length) 0 ++ body)) ++ body := by
  simp [blobOver, blobHeader_eq]

theorem overwrite_blobHeader (seriesRef chunkCount bodyLen stored : UInt32) :
    overwrite (blobHeader seriesRef chunkCount bodyLen stored) blobCrcOffset (u32ToLe 0) =
      blobHeader seriesRef chunkCount bodyLen 0 := by
  rw [blobHeader_eq, blobHeader_eq, ← append_nil (u32ToLe stored),
    overwrite_append (blobFront_length ..).symm (by simp), append_nil]

theorem validateChunkOverflowBlobBytesV1_ok {validated : ValidatedChunkOverflowBlobBytes} :
    validateChunkOverflowBlobBytesV1 crc bytes seriesCount = .ok validated ↔
      validated.seriesRef < seriesCount ∧ validated.chunkCount ≠ 0 ∧
        validated.encodedEntries.length =
          validated.chunkCount.toNat * overflowChunkEntryV1Len ∧
        validated.encodedEntries.length + chunkOverflowBlobV1HeaderLen < 2 ^ 32 ∧
        bytes = blobOver crc validated.seriesRef validated.chunkCount validated.encodedEntries := by
  constructor
  · intro hok
    have hlong : chunkOverflowBlobV1HeaderLen ≤ bytes.length := by
      unfold validateChunkOverflowBlobBytesV1 at hok
      simp only [require_bind_ok] at hok
      exact hok.1
    have hheader := length_take_of_le hlong
    rw [← take_append_drop chunkOverflowBlobV1HeaderLen bytes] at hok ⊢
    obtain ⟨hcount, hlength, hbound, hbody, hstored, hmagic, hversion, hflags, hheaderLen, hseries,
      hreserved, rfl⟩ := (validate_append hheader).mp hok
    have heq := eq_blobHeader_iff.mpr ⟨hheader, hmagic, hversion, hflags, hheaderLen, rfl, rfl,
      hreserved, hbody, rfl⟩
    refine ⟨hseries, hcount, hlength, hbound, ?_⟩
    rw [blobOver_eq, ← overwrite_blobHeader _ _ _ (readU32At _ blobCrcOffset), ← heq, hstored, ← heq]
  rintro ⟨hseries, hcount, hlength, hbound, rfl⟩
  rw [blobOver_eq]
  obtain ⟨hheader, hmagic, hversion, hflags, hheaderLen, href, hchunks, hreserved, hbody, hcrc⟩ :=
    eq_blobHeader_iff.mp (Eq.refl (blobHeader validated.seriesRef validated.chunkCount
      (ofNat validated.encodedEntries.length) (crc.crc32c (blobHeader validated.seriesRef
        validated.chunkCount (ofNat validated.encodedEntries.length) 0 ++
          validated.encodedEntries))))
  rw [validate_append hheader, hchunks, hbody, hcrc, hmagic, hversion, hflags, hheaderLen, href,
    hreserved, overwrite_blobHeader]
  exact ⟨hcount, hlength, hbound, rfl, rfl, rfl, rfl, rfl, rfl, hseries, rfl, rfl⟩

def ChunkOverflowBlobV1.validated (blob : ChunkOverflowBlobV1) : ValidatedChunkOverflowBlobBytes :=
  ⟨blob.seriesRef, UInt32.ofNat blob.entries.length, blobBody blob⟩

theorem ChunkOverflowBlobV1.Stored.validate (h : blob.Stored seriesCount) :
    validateChunkOverflowBlobBytesV1 crc (blobBytes crc blob) seriesCount = .ok blob.validated := by
  refine validateChunkOverflowBlobBytesV1_ok.mpr
    ⟨h.series, (entryCount_ne_zero h.size_lt).mpr h.valid.nonempty, ?_, ?_, rfl⟩
  · rw [ChunkOverflowBlobV1.validated, blobBody_length, toNat_entryCount h.size_lt]
  · rw [ChunkOverflowBlobV1.validated, blobBody_length]
    exact h.size_lt

theorem ChunkOverflowBlobV1.Stored.visitEntries {σ : Type} (h : blob.Stored seriesCount)
    (visit : σ → OverflowChunkEntryV1 → Except IoError σ) (state : σ) :
    blob.validated.visitEntries visit state = blob.entries.foldlM visit state := by
  obtain ⟨-, hblob, hsize⟩ := h
  have hlengths : ∀ chunk ∈ blob.entries.map overflowChunkEntryBytes,
      chunk.length = overflowChunkEntryV1Len := by
    intro chunk hchunk
    obtain ⟨entry, -, rfl⟩ := mem_map.mp hchunk
    exact overflowChunkEntryBytes_length entry
  have hbound : 0 + blob.entries.length < 2 ^ 32 := by
    rw [zero_add]
    exact length_entries_lt hsize
  have hfrom := Ascending.from_none_iff.mpr hblob.ordered
  have hcount : 0 + blob.entries.length = (ofNat blob.entries.length).toNat := by
    rw [toNat_entryCount hsize, zero_add]
  unfold ValidatedChunkOverflowBlobBytes.visitEntries ChunkOverflowBlobV1.validated blobBody
  rw [chunksExact_flatten (by decide) hlengths, foldlM_visitEntry hblob.entries hfrom hbound state]
  cases blob.entries.foldlM visit state with
  | error error => rfl
  | ok visited =>
    simp only [Except.map, bind, Except.bind, require_pos hcount]
    rfl

theorem foldlM_push (entries collected : List OverflowChunkEntryV1) :
    entries.foldlM pushOverflowEntry collected = .ok (collected ++ entries) := by
  induction entries generalizing collected with
  | nil => simp [pure, Except.pure]
  | cons entry entries ih =>
    exact (ih _).trans (by simp)

theorem visitEntries_push {validated : ValidatedChunkOverflowBlobBytes}
    (hseries : validated.seriesRef < seriesCount) (hcount : validated.chunkCount ≠ 0)
    (hlength : validated.encodedEntries.length =
      validated.chunkCount.toNat * overflowChunkEntryV1Len)
    (hbound : validated.encodedEntries.length + chunkOverflowBlobV1HeaderLen < 2 ^ 32)
    (h : validated.visitEntries pushOverflowEntry [] = .ok entries) :
    ChunkOverflowBlobV1.Stored ⟨validated.seriesRef, entries⟩ seriesCount ∧
      validated = (⟨validated.seriesRef, entries⟩ : ChunkOverflowBlobV1).validated := by
  obtain ⟨seriesRef, chunkCount, body⟩ := validated
  unfold ValidatedChunkOverflowBlobBytes.visitEntries at h
  simp only [except_bind_ok, require_ok, exists_const, except_pure_ok] at h hcount hlength hbound
  obtain ⟨last, hfold, hlast, rfl⟩ := h
  obtain ⟨found, hchunks, hvalid, hfrom, hstate⟩ := foldlM_visitEntry_push hfold
  rw [mul_comm] at hlength
  have hflat := (flatten_chunksExact (by decide) hlength).1
  rw [hchunks] at hflat
  rw [hstate, zero_add] at hlast
  rw [hstate, nil_append]
  have hbody : body = blobBody ⟨seriesRef, found⟩ := hflat.symm
  have hsize : (⟨seriesRef, found⟩ : ChunkOverflowBlobV1).size < 2 ^ 32 := by
    rw [hbody, blobBody_length] at hbound
    exact hbound
  have hcountEq : chunkCount = UInt32.ofNat found.length := by
    rw [← UInt32.toNat_inj, ← hlast]
    exact (toNat_entryCount hsize).symm
  refine ⟨⟨hseries, ⟨?_, hvalid, Ascending.from_none_iff.mp hfrom⟩, hsize⟩, ?_⟩
  · exact (entryCount_ne_zero hsize).mp (hcountEq ▸ hcount)
  · rw [ChunkOverflowBlobV1.validated, ← hbody, hcountEq]

theorem decodeChunkOverflowBlobV1_ok :
    decodeChunkOverflowBlobV1 crc bytes seriesCount = .ok blob ↔
      blob.Stored seriesCount ∧ bytes = blobBytes crc blob := by
  unfold decodeChunkOverflowBlobV1
  simp only [except_bind_ok, except_pure_ok]
  constructor
  · rintro ⟨validated, hvalidate, entries, hentries, rfl⟩
    obtain ⟨hseries, hcount, hlength, hbound, rfl⟩ :=
      validateChunkOverflowBlobBytesV1_ok.mp hvalidate
    obtain ⟨hstored, heq⟩ := visitEntries_push hseries hcount hlength hbound hentries
    refine ⟨hstored, ?_⟩
    conv_lhs => rw [heq]
    rfl
  · rintro ⟨hstored, rfl⟩
    refine ⟨blob.validated, hstored.validate, blob.entries, ?_, rfl⟩
    rw [hstored.visitEntries]
    exact foldlM_push blob.entries []

def rootFront (seriesCount blobCount : UInt32) (blobsLen fileLen : UInt64) : Bytes :=
  [u32ToLe chunkIndexMagic, u16ToLe chunkIndexVersionV2, u16ToLe 0,
    u32ToLe (UInt32.ofNat chunkOverflowRootV2Len),
    u32ToLe (UInt32.ofNat chunkOverflowBlobV1HeaderLen),
    u32ToLe (UInt32.ofNat overflowChunkEntryV1Len), u32ToLe seriesCount, u32ToLe blobCount,
    u32ToLe 0, u64ToLe chunkOverflowBlobsOffset, u64ToLe blobsLen, u64ToLe fileLen].flatten

variable (seriesCount blobCount : UInt32)

variable (blobsLen fileLen : UInt64)

theorem rootFront_length :
    (rootFront seriesCount blobCount blobsLen fileLen).length = rootCrcOffset := by
  simp [rootFront, rootCrcOffset]

theorem rootFields_eq
    (rootCrc32c : UInt32) : rootFields seriesCount blobCount blobsLen fileLen rootCrc32c =
      rootFront seriesCount blobCount blobsLen fileLen ++ (u32ToLe rootCrc32c ++ u32ToLe 0) := by
  simp [rootFields, rootFront]

theorem overwrite_rootFields
    (stored rootCrc32c : UInt32) :
    overwrite (rootFields seriesCount blobCount blobsLen fileLen stored) rootCrcOffset
        (u32ToLe rootCrc32c) = rootFields seriesCount blobCount blobsLen fileLen rootCrc32c := by
  rw [rootFields_eq, rootFields_eq, overwrite_append (rootFront_length ..).symm (by simp)]

theorem eq_rootFields_iff {seriesCount blobCount : UInt32}
    {blobsLen fileLen : UInt64} {rootCrc32c : UInt32} :
    bytes = rootFields seriesCount blobCount blobsLen fileLen rootCrc32c ↔
      bytes.length = chunkOverflowRootV2Len ∧ readU32At bytes 0 = chunkIndexMagic ∧
      readU16At bytes 4 = chunkIndexVersionV2 ∧ readU16At bytes 6 = 0 ∧
      readU32At bytes 8 = UInt32.ofNat chunkOverflowRootV2Len ∧
      readU32At bytes 12 = UInt32.ofNat chunkOverflowBlobV1HeaderLen ∧
      readU32At bytes 16 = UInt32.ofNat overflowChunkEntryV1Len ∧
      readU32At bytes 20 = seriesCount ∧ readU32At bytes 24 = blobCount ∧
      readU32At bytes 28 = 0 ∧ readU64At bytes 32 = chunkOverflowBlobsOffset ∧
      readU64At bytes 40 = blobsLen ∧ readU64At bytes 48 = fileLen ∧
      readU32At bytes rootCrcOffset = rootCrc32c ∧ readU32At bytes 60 = 0 := by
  unfold rootFields rootCrcOffset
  rw [eq_flatten_iff]
  simp only [map_cons, map_nil, sum_cons, sum_nil, FieldsAt, and_true,
    u16ToLe_length, u32ToLe_length, u64ToLe_length, Nat.reduceAdd]
  refine and_congr_right fun hlen => ?_
  simp (disch := omega) only [readU16At_eq_iff, readU32At_eq_iff, readU64At_eq_iff]

def rootOf (crc : Crc32c) (seriesCount blobCount : UInt32) (blobsLen : UInt64) :
    ChunkOverflowRootV2 :=
  ⟨seriesCount, blobCount, blobsLen, chunkOverflowBlobsOffset + blobsLen,
    crc.crc32c (rootFields seriesCount blobCount blobsLen (chunkOverflowBlobsOffset + blobsLen) 0)⟩

def rootBytes (root : ChunkOverflowRootV2) : Bytes :=
  rootFields root.seriesCount root.blobCount root.blobsLen root.fileLen root.rootCrc32c

theorem rootBytes_length (root : ChunkOverflowRootV2) :
    (rootBytes root).length = chunkOverflowRootV2Len :=
  (eq_rootFields_iff.mp (Eq.refl (rootBytes root))).1

structure RootCounts (seriesCount blobCount : UInt32) (blobsLen : UInt64) : Prop where
  count_le : blobCount ≤ seriesCount
  empty_iff : blobCount = 0 ↔ blobsLen = 0
  file_lt : chunkOverflowBlobsOffset.toNat + blobsLen.toNat < 2 ^ 64

theorem encodeChunkOverflowRootV2_ok {seriesCount blobCount : UInt32} {blobsLen : UInt64} :
    encodeChunkOverflowRootV2 crc seriesCount blobCount blobsLen = .ok bytes ↔
      RootCounts seriesCount blobCount blobsLen ∧
        bytes = rootBytes (rootOf crc seriesCount blobCount blobsLen) := by
  unfold encodeChunkOverflowRootV2
  simp only [require_bind_ok, except_pure_ok, overwrite_rootFields]
  constructor
  · rintro ⟨hle, hempty, hlt, rfl⟩
    exact ⟨⟨hle, hempty, hlt⟩, rfl⟩
  · rintro ⟨⟨hle, hempty, hlt⟩, rfl⟩
    exact ⟨hle, hempty, hlt, rfl⟩

theorem decodeChunkOverflowRootV2_ok {actualFileLen : Nat} {root : ChunkOverflowRootV2} :
    decodeChunkOverflowRootV2 crc bytes actualFileLen = .ok root ↔
      RootCounts root.seriesCount root.blobCount root.blobsLen ∧
        root.blobCount.toNat * minChunkOverflowBlobV1Len ≤ root.blobsLen.toNat ∧
        actualFileLen = chunkOverflowBlobsOffset.toNat + root.blobsLen.toNat ∧
        root = rootOf crc root.seriesCount root.blobCount root.blobsLen ∧
        bytes = rootBytes root := by
  have hfile : ∀ blobsLen : UInt64, chunkOverflowBlobsOffset.toNat + blobsLen.toNat < 2 ^ 64 →
      (chunkOverflowBlobsOffset + blobsLen).toNat =
        chunkOverflowBlobsOffset.toNat + blobsLen.toNat := by
    intro blobsLen hlt
    rw [UInt64.toNat_add, mod_eq_of_lt hlt]
  unfold decodeChunkOverflowRootV2
  simp only [except_bind_ok, requireExactLen_ok, require_ok, exists_const, except_pure_ok]
  constructor
  · rintro ⟨hlen, hcrc, hmagic, hversion, hflags, hrootLen, hheaderLen, hentryLen, hle,
      ⟨hreserved, hreserved'⟩, hoffset, hlt, ⟨hfileLen, hactual⟩, hempty, -, hmin, rfl⟩
    have hbytes := eq_rootFields_iff.mpr ⟨hlen, hmagic, hversion, hflags, hrootLen, hheaderLen,
      hentryLen, rfl, rfl, hreserved, hoffset, rfl, rfl, rfl, hreserved'⟩
    refine ⟨⟨hle, hempty, hlt⟩, hmin, ?_, ?_, hbytes⟩
    · rw [← hactual, hfileLen, hfile _ hlt]
    have hzeroed := (congrArg (overwrite · rootCrcOffset (u32ToLe 0)) hbytes).trans
      (overwrite_rootFields ..)
    rw [rootOf, ChunkOverflowRootV2.mk.injEq]
    exact ⟨rfl, rfl, rfl, hfileLen, by rw [← hfileLen, ← hzeroed, hcrc]⟩
  rintro ⟨⟨hle, hempty, hlt⟩, hmin, hactual, hroot, rfl⟩
  obtain ⟨hlen, hmagic, hversion, hflags, hrootLen, hheaderLen, hentryLen, hseries, hcount,
    hreserved, hoffset, hblobs, hfileLen, hcrc, hreserved'⟩ :=
    eq_rootFields_iff.mp (Eq.refl (rootBytes root))
  have hrootFile : root.fileLen = chunkOverflowBlobsOffset + root.blobsLen :=
    congrArg ChunkOverflowRootV2.fileLen hroot
  have hrootCrc := congrArg ChunkOverflowRootV2.rootCrc32c hroot
  have hzeroed : overwrite (rootBytes root) rootCrcOffset (u32ToLe 0) =
      rootFields root.seriesCount root.blobCount root.blobsLen root.fileLen 0 :=
    overwrite_rootFields ..
  rw [hzeroed, hseries, hcount, hblobs, hfileLen, hcrc]
  refine ⟨hlen, ?_, hmagic, hversion, hflags, hrootLen, hheaderLen, hentryLen, hle,
    ⟨hreserved, hreserved'⟩, hoffset, hlt, ⟨hrootFile, ?_⟩, hempty, ?_, hmin, rfl⟩
  · rw [hrootFile]
    exact hrootCrc.symm
  · rw [hrootFile, hfile _ hlt, hactual]
  · exact lt_of_le_of_lt hmin root.blobsLen.toNat_lt

end Chronoxide
