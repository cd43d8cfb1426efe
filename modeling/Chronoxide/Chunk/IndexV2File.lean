import Chronoxide.Chunk.IndexV2Codec
import Mathlib.Data.List.Nodup

/-! The whole chunk index: the root, the blobs one after the other, and the slices that locators
name. -/

namespace Chronoxide
open Codec List UInt32 Nat

structure BlobsValid (seriesCount : UInt32) (blobs : List ChunkOverflowBlobV1) : Prop where
  ordered : (blobs.map ChunkOverflowBlobV1.seriesRef).Pairwise (· < ·)
  series : ∀ blob ∈ blobs, blob.seriesRef < seriesCount
  valid : ∀ blob ∈ blobs, blob.Valid

def regionLen (blobs : List ChunkOverflowBlobV1) : Nat :=
  (blobs.map ChunkOverflowBlobV1.size).sum

structure BlobsFit (blobs : List ChunkOverflowBlobV1) : Prop where
  blob : ∀ blob ∈ blobs, blob.size < 2 ^ 32
  file : chunkOverflowBlobsOffset.toNat + regionLen blobs < 2 ^ 64

def region (crc : Crc32c) (blobs : List ChunkOverflowBlobV1) : Bytes :=
  (blobs.map (blobBytes crc)).flatten

def locatorAt (offset : Nat) (blob : ChunkOverflowBlobV1) : ChunkOverflowBlobLocatorV1 :=
  ⟨blob.seriesRef, UInt64.ofNat offset, UInt32.ofNat blob.size, UInt32.ofNat blob.entries.length⟩

def locatorsFrom : Nat → List ChunkOverflowBlobV1 → List ChunkOverflowBlobLocatorV1
  | _, [] => []
  | offset, blob :: blobs => locatorAt offset blob :: locatorsFrom (offset + blob.size) blobs

section
variable {crc : Crc32c} {blob : ChunkOverflowBlobV1} {blobs : List ChunkOverflowBlobV1}

theorem regionLen_cons : regionLen (blob :: blobs) = blob.size + regionLen blobs := rfl

theorem region_cons : region crc (blob :: blobs) = blobBytes crc blob ++ region crc blobs := rfl

theorem region_length : (region crc blobs).length = regionLen blobs := by
  induction blobs with
  | nil => rfl
  | cons blob blobs ih =>
    rw [region_cons, length_append, ih, blobBytes_length, regionLen_cons]

theorem size_pos (blob : ChunkOverflowBlobV1) : 0 < blob.size :=
  lt_of_lt_of_le (by decide) (le_add_left chunkOverflowBlobV1HeaderLen _)

theorem ChunkOverflowBlobV1.Valid.min_le_size (h : blob.Valid) :
    minChunkOverflowBlobV1Len ≤ blob.size := by
  have hpos := length_pos_of_ne_nil h.nonempty
  unfold minChunkOverflowBlobV1Len ChunkOverflowBlobV1.size overflowChunkEntryV1Len
  omega

theorem min_le_regionLen (h : ∀ blob ∈ blobs, blob.Valid) :
    blobs.length * minChunkOverflowBlobV1Len ≤ regionLen blobs := by
  induction blobs with
  | nil => exact le_refl _
  | cons blob blobs ih =>
    obtain ⟨hblob, hblobs⟩ := forall_mem_cons.mp h
    have hmin := hblob.min_le_size
    have hrest := ih hblobs
    rw [length_cons, succ_mul, regionLen_cons]
    omega

theorem regionLen_eq_zero : regionLen blobs = 0 ↔ blobs = [] := by
  cases blobs with
  | nil => exact iff_of_true rfl rfl
  | cons blob blobs =>
    have hpos := size_pos blob
    rw [regionLen_cons]
    simp
    omega

variable {seriesCount : UInt32}

theorem BlobsValid.length_le (h : BlobsValid seriesCount blobs) :
    blobs.length ≤ seriesCount.toNat := by
  have hordered := (pairwise_map.mp h.ordered).imp lt_iff_toNat_lt.mp
  have hseries : ∀ ref ∈ blobs.map (·.seriesRef.toNat), ref < seriesCount.toNat := by
    simpa using fun blob hblob => lt_iff_toNat_lt.mp (h.series blob hblob)
  have hle := Ascending.length_le (pairwise_map.mpr hordered) hseries
  rwa [length_map] at hle

theorem BlobsValid.length_lt (h : BlobsValid seriesCount blobs) :
    blobs.length < 2 ^ 32 := lt_of_le_of_lt h.length_le seriesCount.toNat_lt

theorem stored_iff :
    (blobs.map ChunkOverflowBlobV1.seriesRef).Pairwise (· < ·) ∧
        (∀ blob ∈ blobs, blob.Stored seriesCount) ∧
        chunkOverflowBlobsOffset.toNat + regionLen blobs < 2 ^ 64 ↔
      BlobsValid seriesCount blobs ∧ BlobsFit blobs := by
  constructor
  · rintro ⟨hordered, hstored, hfile⟩
    exact ⟨⟨hordered, fun blob hblob => (hstored blob hblob).series,
      fun blob hblob => (hstored blob hblob).valid⟩,
      fun blob hblob => (hstored blob hblob).size_lt, hfile⟩
  · rintro ⟨hvalid, hfit⟩
    exact ⟨hvalid.ordered, fun blob hblob => ⟨hvalid.series blob hblob, hvalid.valid blob hblob,
      hfit.blob blob hblob⟩, hfit.file⟩

end

section
variable {crc : Crc32c} {seriesCount : UInt32} {blobs : List ChunkOverflowBlobV1}

theorem foldlM_encodeBlob_ok {state last : List Bytes × Nat}
    (hlen : state.2 < 2 ^ 64) :
    blobs.foldlM (encodeBlob crc seriesCount) state = .ok last ↔
      (∀ blob ∈ blobs, blob.Stored seriesCount) ∧ state.2 + regionLen blobs < 2 ^ 64 ∧
        last = (state.1 ++ blobs.map (blobBytes crc), state.2 + regionLen blobs) := by
  induction blobs generalizing state with
  | nil =>
    rw [foldlM_nil, except_pure_ok]
    simpa [regionLen, eq_comm] using fun _ => hlen
  | cons blob blobs ih =>
    simp only [foldlM_cons, encodeBlob, except_bind_ok, require_ok, exists_const,
      except_pure_ok, encodeChunkOverflowBlobV1_ok, forall_mem_cons]
    constructor
    · rintro ⟨_, ⟨_, ⟨hblob, rfl⟩, hlt, rfl⟩, hrest⟩
      obtain ⟨hblobs, hend, rfl⟩ := (ih hlt).mp hrest
      rw [blobBytes_length, add_assoc] at hend
      refine ⟨⟨hblob, hblobs⟩, hend, ?_⟩
      rw [blobBytes_length, regionLen_cons, add_assoc]
      simp
    rintro ⟨⟨hblob, hblobs⟩, hend, rfl⟩
    have hlt : state.2 + (blobBytes crc blob).length < 2 ^ 64 := by
      rw [regionLen_cons] at hend
      rw [blobBytes_length]
      omega
    refine ⟨_, ⟨_, ⟨hblob, rfl⟩, hlt, rfl⟩, (ih hlt).mpr ⟨hblobs, ?_, ?_⟩⟩
    · rwa [blobBytes_length, add_assoc]
    · rw [blobBytes_length, regionLen_cons, add_assoc]
      simp

theorem foldlM_placeBlob (hsizes : ∀ blob ∈ blobs, blob.size < 2 ^ 32)
    {locators : List ChunkOverflowBlobLocatorV1} {front : Bytes} {offset : Nat}
    (hoffset : offset + regionLen blobs < 2 ^ 64) :
    (blobs.zip (blobs.map (blobBytes crc))).foldlM placeBlob (locators, front, offset) =
      .ok (locators ++ locatorsFrom offset blobs, front ++ region crc blobs,
        offset + regionLen blobs) := by
  induction blobs generalizing locators front offset with
  | nil => simp [locatorsFrom, region, regionLen, pure, Except.pure]
  | cons blob blobs ih =>
    obtain ⟨hsize, hblobs⟩ := forall_mem_cons.mp hsizes
    rw [regionLen_cons] at hoffset
    have hcount := length_entries_lt hsize
    have hstep : placeBlob (locators, front, offset) (blob, blobBytes crc blob) =
        .ok (locators ++ [locatorAt offset blob], front ++ blobBytes crc blob,
          offset + blob.size) := by
      simp only [placeBlob, blobBytes_length, require_pos hsize, require_pos hcount, bind,
        Except.bind]
      rw [require_pos (by omega)]
      rfl
    rw [map_cons, zip_cons_cons, foldlM_cons, hstep]
    refine (ih hblobs (by omega)).trans ?_
    rw [regionLen_cons, region_cons, locatorsFrom, add_assoc]
    simp

def indexRoot (crc : Crc32c) (seriesCount : UInt32) (blobs : List ChunkOverflowBlobV1) :
    ChunkOverflowRootV2 :=
  rootOf crc seriesCount (UInt32.ofNat blobs.length) (UInt64.ofNat (regionLen blobs))

def indexOf (crc : Crc32c) (seriesCount : UInt32) (blobs : List ChunkOverflowBlobV1) :
    EncodedChunkIndexV2 :=
  ⟨rootBytes (indexRoot crc seriesCount blobs) ++ region crc blobs,
    indexRoot crc seriesCount blobs,
    locatorsFrom chunkOverflowBlobsOffset.toNat blobs⟩

theorem BlobsFit.toNat_regionLen (h : BlobsFit blobs) :
    (UInt64.ofNat (regionLen blobs)).toNat = regionLen blobs :=
  UInt64.toNat_ofNat_of_lt' (lt_of_le_of_lt (le_add_left _ _) h.file)

theorem BlobsValid.toNat_length (h : BlobsValid seriesCount blobs) :
    (ofNat blobs.length).toNat = blobs.length :=
  toNat_ofNat_of_lt' h.length_lt

theorem BlobsValid.rootCounts (h : BlobsValid seriesCount blobs) (hfit : BlobsFit blobs) :
    RootCounts seriesCount (UInt32.ofNat blobs.length) (UInt64.ofNat (regionLen blobs)) := by
  refine ⟨?_, ?_, ?_⟩
  · rw [UInt32.le_iff_toNat_le, h.toNat_length]
    exact h.length_le
  · rw [← UInt32.toNat_inj, ← UInt64.toNat_inj, h.toNat_length, hfit.toNat_regionLen]
    exact length_eq_zero_iff.trans regionLen_eq_zero.symm
  · rw [hfit.toNat_regionLen]
    exact hfit.file

theorem decodeRoot_indexRoot (h : BlobsValid seriesCount blobs) (hfit : BlobsFit blobs) :
    decodeChunkOverflowRootV2 crc (rootBytes (indexRoot crc seriesCount blobs))
      (chunkOverflowBlobsOffset.toNat + regionLen blobs) =
        .ok (indexRoot crc seriesCount blobs) := by
  refine decodeChunkOverflowRootV2_ok.mpr ⟨h.rootCounts hfit, ?_, ?_, rfl, rfl⟩
  · change (ofNat blobs.length).toNat * _ ≤ (UInt64.ofNat (regionLen blobs)).toNat
    rw [h.toNat_length, hfit.toNat_regionLen]
    exact min_le_regionLen h.valid
  · change _ = chunkOverflowBlobsOffset.toNat + (UInt64.ofNat (regionLen blobs)).toNat
    rw [hfit.toNat_regionLen]

theorem validateBlobSeriesOrder_ok {errorKind : ErrorKind} {u : Unit} :
    validateBlobSeriesOrder blobs seriesCount errorKind = .ok u ↔
      (∀ blob ∈ blobs, blob.seriesRef < seriesCount) ∧
        (blobs.map ChunkOverflowBlobV1.seriesRef).Pairwise (· < ·) := by
  unfold validateBlobSeriesOrder
  simp only [except_bind_ok, except_pure_ok, and_true, Ascending.foldlM_step_ok, require_ok,
    Ascending.from_none_iff]

theorem encodeChunkIndexV2_ok {encoded : EncodedChunkIndexV2} :
    encodeChunkIndexV2 crc seriesCount blobs = .ok encoded ↔
      BlobsValid seriesCount blobs ∧ BlobsFit blobs ∧
        encoded = indexOf crc seriesCount blobs := by
  unfold encodeChunkIndexV2
  simp only [except_bind_ok, require_ok, exists_const, except_pure_ok, validateBlobSeriesOrder_ok,
    encodeChunkOverflowRootV2_ok]
  constructor
  · rintro ⟨-, -, ⟨hseries, hordered⟩, _, hencode, hfile, _, hplace, -, _, ⟨-, rfl⟩, root, hroot, rfl⟩
    obtain ⟨hstored, -, rfl⟩ := (foldlM_encodeBlob_ok (by decide)).mp hencode
    simp only [nil_append, zero_add] at *
    obtain ⟨hvalid, hfit⟩ := stored_iff.mp ⟨hordered, hstored, hfile⟩
    rw [foldlM_placeBlob hfit.blob hfit.file] at hplace
    obtain rfl := Except.ok.inj hplace
    have hdecode : decodeChunkOverflowRootV2 crc (rootBytes (indexRoot crc seriesCount blobs))
        (chunkOverflowBlobsOffset.toNat + regionLen blobs) = .ok (indexRoot crc seriesCount blobs) :=
      decodeRoot_indexRoot hvalid hfit
    obtain rfl := Except.ok.inj (hdecode.symm.trans hroot)
    exact ⟨hvalid, hfit, rfl⟩
  rintro ⟨hvalid, hfit, rfl⟩
  obtain ⟨-, hstored, hfile⟩ := stored_iff.mpr ⟨hvalid, hfit⟩
  have hencode : blobs.foldlM (encodeBlob crc seriesCount) ([], 0) =
      .ok (blobs.map (blobBytes crc), regionLen blobs) :=
    (foldlM_encodeBlob_ok (by decide)).mpr ⟨hstored, by omega, by simp⟩
  refine ⟨hvalid.length_lt, (hvalid.rootCounts hfit).count_le, ⟨hvalid.series, hvalid.ordered⟩, _,
    hencode, hfile, _, foldlM_placeBlob hfit.blob hfile, rfl, _, ⟨hvalid.rootCounts hfit, rfl⟩, _,
    decodeRoot_indexRoot hvalid hfit, rfl⟩

variable {bytes : Bytes}

theorem readU32At_blobBytes {cursor : Nat} {blob : ChunkOverflowBlobV1}
    (h : fieldAt bytes cursor blob.size = blobBytes crc blob) :
    readU32At bytes (cursor + 16) = UInt32.ofNat blob.entries.length ∧
      readU32At bytes (cursor + 24) = UInt32.ofNat (blobBody blob).length := by
  have hmin : 32 ≤ blob.size := Nat.le_add_left ..
  obtain ⟨hheader, -, -, -, -, -, hcount, -, hbody, -⟩ :=
    eq_blobHeader_iff.mp (Eq.refl (blobHeader blob.seriesRef (ofNat blob.entries.length)
      (ofNat (blobBody blob).length) (crc.crc32c (blobHeader blob.seriesRef
        (ofNat blob.entries.length) (ofNat (blobBody blob).length) 0 ++
          blobBody blob))))
  change _ = 32 at hheader
  have hread : ∀ offset, offset + 4 ≤ 32 → readU32At bytes (cursor + offset) =
      readU32At (blobBytes crc blob) offset := by
    intro offset hoffset
    rw [readU32At, readU32At, ← h, fieldAt_fieldAt (by omega)]
  rw [hread 16 (by decide), hread 24 (by decide), blobBytes, blobOver_eq,
    readU32At_append_left (by omega), readU32At_append_left (by omega)]
  exact ⟨hcount, hbody⟩

theorem decodeBlobs_succ_ok (hbytes : bytes.length < 2 ^ 64) {count cursor stop : Nat}
    {previous : Option UInt32}
    {decoded : List (ChunkOverflowBlobV1 × ChunkOverflowBlobLocatorV1)} :
    decodeBlobs crc bytes seriesCount (count + 1) cursor previous = .ok (decoded, stop) ↔
      ∃ blob rest, decoded = (blob, locatorAt cursor blob) :: rest ∧ blob.Stored seriesCount ∧
        fieldAt bytes cursor blob.size = blobBytes crc blob ∧
        (∀ ref ∈ previous, ref < blob.seriesRef) ∧
        decodeBlobs crc bytes seriesCount count (cursor + blob.size) (some blob.seriesRef) =
          .ok (rest, stop) := by
  rw [decodeBlobs]
  simp only [except_bind_ok, require_ok, exists_const, okOr_ok, checkedChunkOverflowBlobLen_eq_some,
    except_pure_ok, decodeChunkOverflowBlobV1_ok, Prod.mk.injEq]
  constructor
  · rintro ⟨-, hheader, blobLen, hlen, hbody, -, hend, blob, ⟨hstored, hfield⟩, hless,
      ⟨rest, stop'⟩, hrest, rfl, rfl⟩
    have hblobLen : blobLen.toNat = blob.size := by
      rw [← blobBytes_length crc blob, ← hfield, fieldAt_length hend]
    have hcount : (readU32At bytes (cursor + 16)).toNat = blob.entries.length := by
      rw [hblobLen, ChunkOverflowBlobV1.size] at hlen
      unfold overflowChunkEntryV1Len at hlen
      omega
    rw [hblobLen] at hfield hrest
    refine ⟨blob, rest, ?_, hstored, hfield, hless, hrest⟩
    rw [locatorAt, ← hblobLen, ← hcount, UInt32.ofNat_toNat, UInt32.ofNat_toNat]
  rintro ⟨blob, rest, rfl, hstored, hfield, hless, hrest⟩
  have hsize := hstored.size_lt
  have hend : cursor + blob.size ≤ bytes.length :=
    le_length_of_fieldAt (size_pos blob) (by rw [hfield, blobBytes_length])
  have hmin : chunkOverflowBlobV1HeaderLen ≤ blob.size := Nat.le_add_left ..
  obtain ⟨hcount, hbody⟩ := readU32At_blobBytes hfield
  have hblobLen : (UInt32.ofNat blob.size).toNat =
      blob.entries.length * overflowChunkEntryV1Len + chunkOverflowBlobV1HeaderLen :=
    toNat_size hsize
  refine ⟨by omega, by omega, UInt32.ofNat blob.size, ?_, ?_, ?_, ?_, blob, ⟨hstored, ?_⟩, hless,
    (rest, stop), ?_, ?_, rfl⟩
  · rw [hcount, toNat_entryCount hsize, hblobLen]
  · rw [hbody, sub_headerLen hblobLen, blobBody_length]
  · rw [toNat_size hsize]
    omega
  · rw [toNat_size hsize]
    exact hend
  · rw [toNat_size hsize]
    exact hfield
  · rw [toNat_size hsize]
    exact hrest
  · rw [hcount]
    rfl

theorem decodeBlobs_ok (hbytes : bytes.length < 2 ^ 64) {count cursor stop : Nat}
    {previous : Option UInt32}
    {decoded : List (ChunkOverflowBlobV1 × ChunkOverflowBlobLocatorV1)} :
    decodeBlobs crc bytes seriesCount count cursor previous = .ok (decoded, stop) ↔
      ∃ blobs, decoded = blobs.zip (locatorsFrom cursor blobs) ∧ blobs.length = count ∧
        stop = cursor + regionLen blobs ∧
        (∀ blob ∈ blobs, blob.Stored seriesCount) ∧
        Ascending.From previous (blobs.map ChunkOverflowBlobV1.seriesRef) ∧
        FieldsAt bytes cursor (blobs.map (blobBytes crc)) := by
  induction count generalizing cursor previous decoded with
  | zero =>
    rw [decodeBlobs, Except.ok.injEq, Prod.mk.injEq]
    constructor
    · rintro ⟨rfl, rfl⟩
      exact ⟨[], rfl, rfl, rfl, by simp, trivial, trivial⟩
    · rintro ⟨blobs, rfl, hlength, rfl, -⟩
      obtain rfl := length_eq_zero_iff.mp hlength
      exact ⟨rfl, rfl⟩
  | succ count ih =>
    rw [decodeBlobs_succ_ok hbytes]
    constructor
    · rintro ⟨blob, rest, rfl, hblob, hfield, hless, hrest⟩
      obtain ⟨blobs, rfl, rfl, rfl, hblobs, hfrom, hfields⟩ := ih.mp hrest
      refine ⟨blob :: blobs, rfl, rfl, ?_, forall_mem_cons.mpr ⟨hblob, hblobs⟩, ⟨hless, hfrom⟩,
        ?_⟩
      · rw [regionLen_cons, add_assoc]
      · rw [map_cons, FieldsAt, blobBytes_length]
        exact ⟨hfield, hfields⟩
    rintro ⟨blobs, rfl, hlength, rfl, hblobs, hfrom, hfields⟩
    cases blobs with
    | nil => simp at hlength
    | cons blob blobs =>
      obtain ⟨hblob, hblobs⟩ := forall_mem_cons.mp hblobs
      obtain ⟨hless, hfrom⟩ := hfrom
      rw [map_cons, FieldsAt, blobBytes_length] at hfields
      refine ⟨blob, _, rfl, hblob, hfields.1, hless, ih.mpr ⟨blobs, rfl, succ.inj hlength, ?_,
        hblobs, hfrom, hfields.2⟩⟩
      rw [regionLen_cons, add_assoc]

theorem locatorsFrom_length (offset : Nat) (blobs : List ChunkOverflowBlobV1) :
    (locatorsFrom offset blobs).length = blobs.length := by
  induction blobs generalizing offset with
  | nil => rfl
  | cons blob blobs ih => rw [locatorsFrom, length_cons, length_cons, ih]

theorem indexOf_length (crc : Crc32c) (seriesCount : UInt32) (blobs : List ChunkOverflowBlobV1) :
    (indexOf crc seriesCount blobs).bytes.length = chunkOverflowRootV2Len + regionLen blobs := by
  rw [indexOf, length_append, rootBytes_length, region_length]

theorem decodeChunkIndexV2_ok {decoded : DecodedChunkIndexV2} :
    decodeChunkIndexV2 crc bytes = .ok decoded ↔
      ∃ seriesCount, BlobsValid seriesCount decoded.blobs ∧ BlobsFit decoded.blobs ∧
        bytes = (indexOf crc seriesCount decoded.blobs).bytes ∧
        decoded.root = (indexOf crc seriesCount decoded.blobs).root ∧
        decoded.blobLocators = (indexOf crc seriesCount decoded.blobs).blobLocators := by
  unfold decodeChunkIndexV2
  simp only [except_bind_ok, require_ok, exists_const, except_pure_ok]
  constructor
  · rintro ⟨hlong, root, hroot, ⟨pairs, cursor⟩, hblobs, hcursor, hlen, rfl⟩
    obtain ⟨hcounts, -, hactual, hrootEq, hrootBytes⟩ := decodeChunkOverflowRootV2_ok.mp hroot
    have hfile := hcounts.file_lt
    obtain ⟨blobs, rfl, hcount, hstop, hstored, hfrom, hfields⟩ :=
      (decodeBlobs_ok (by omega)).mp hblobs
    have hfst : (blobs.zip (locatorsFrom chunkOverflowRootV2Len blobs)).map Prod.fst = blobs :=
      map_fst_zip (by rw [locatorsFrom_length])
    have hsnd : (blobs.zip (locatorsFrom chunkOverflowRootV2Len blobs)).map Prod.snd =
        locatorsFrom chunkOverflowRootV2Len blobs :=
      map_snd_zip (by rw [locatorsFrom_length])
    simp only [hfst, hsnd]
    have hregion : regionLen blobs = root.blobsLen.toNat := by omega
    obtain ⟨hvalid, hfit⟩ :=
      stored_iff.mp ⟨Ascending.from_none_iff.mp hfrom, hstored, hregion ▸ hfile⟩
    have hindexRoot : root = indexRoot crc root.seriesCount blobs := by
      rw [indexRoot, hcount, hregion, UInt32.ofNat_toNat, UInt64.ofNat_toNat]
      exact hrootEq
    refine ⟨root.seriesCount, hvalid, hfit, ?_, hindexRoot, rfl⟩
    have hparts : bytes = (rootBytes root :: blobs.map (blobBytes crc)).flatten := by
      refine eq_flatten_of_fieldsAt ⟨?_, ?_⟩ ?_
      · rw [rootBytes_length, fieldAt, drop_zero, hrootBytes]
      · rw [rootBytes_length, Nat.zero_add]
        exact hfields
      · have hlengths : (region crc blobs).length = regionLen blobs := region_length
        rw [region, length_flatten] at hlengths
        rw [map_cons, sum_cons, hlengths, rootBytes_length, ← hcursor, hstop]
    rw [hparts, flatten_cons, indexOf, ← hindexRoot]
    rfl
  obtain ⟨root, blobs, locators⟩ := decoded
  dsimp only
  rintro ⟨seriesCount, hvalid, hfit, rfl, rfl, rfl⟩
  have hlength := indexOf_length crc seriesCount blobs
  have hfile : chunkOverflowRootV2Len + regionLen blobs < 2 ^ 64 := hfit.file
  have htake : (indexOf crc seriesCount blobs).bytes.take chunkOverflowRootV2Len =
      rootBytes (indexRoot crc seriesCount blobs) := by
    rw [indexOf, ← rootBytes_length (indexRoot crc seriesCount blobs), take_left]
  have hcount : (indexRoot crc seriesCount blobs).blobCount.toNat = blobs.length :=
    hvalid.toNat_length
  refine ⟨by omega, indexRoot crc seriesCount blobs, ?_,
    (blobs.zip (locatorsFrom chunkOverflowRootV2Len blobs),
      chunkOverflowRootV2Len + regionLen blobs), ?_, hlength.symm, ?_, ?_⟩
  · rw [htake, hlength]
    exact decodeRoot_indexRoot hvalid hfit
  · obtain ⟨hordered, hstored, -⟩ := stored_iff.mpr ⟨hvalid, hfit⟩
    rw [hcount]
    refine (decodeBlobs_ok (by omega)).mpr ⟨blobs, rfl, rfl, rfl, hstored,
      Ascending.from_none_iff.mpr hordered, ?_⟩
    have hfields : FieldsAt (region crc blobs) 0 (blobs.map (blobBytes crc)) := fieldsAt_flatten
    exact (fieldsAt_append _ 0).mpr hfields
  · rw [Nat.add_sub_cancel_left]
    exact hfit.toNat_regionLen.symm
  · rw [map_fst_zip (by rw [locatorsFrom_length]),
      map_snd_zip (by rw [locatorsFrom_length])]
    rfl

end

section
variable {crc : Crc32c} {root : ChunkOverflowRootV2} {blob : ChunkOverflowBlobV1}
  {locator : ChunkOverflowBlobLocatorV1}

/-- The locator has the identity and the length of the blob, and its range is inside the blob
region. -/
structure Locates (root : ChunkOverflowRootV2) (locator : ChunkOverflowBlobLocatorV1)
    (blob : ChunkOverflowBlobV1) : Prop where
  seriesRef : locator.seriesRef = blob.seriesRef
  chunkCount : locator.chunkCount = UInt32.ofNat blob.entries.length
  blobLen : locator.blobLen = UInt32.ofNat blob.size
  start : chunkOverflowBlobsOffset ≤ locator.blobOffset
  stop : locator.blobOffset.toNat + locator.blobLen.toNat ≤ root.fileLen.toNat

theorem validateTouched_ok (hstored : blob.Stored root.seriesCount)
    {validated : ValidatedChunkOverflowBlobBytes} :
    validateTouchedChunkOverflowBlobBytesV1 crc (blobBytes crc blob) root locator = .ok validated ↔
      (locator.chunkCount = UInt32.ofNat blob.entries.length ∧
        locator.blobLen = UInt32.ofNat blob.size ∧ chunkOverflowBlobsOffset ≤ locator.blobOffset ∧
        locator.blobOffset.toNat + locator.blobLen.toNat ≤ root.fileLen.toNat) ∧
      validated = blob.validated := by
  have hfile := root.fileLen.toNat_lt
  have hsize := hstored.size_lt
  unfold validateTouchedChunkOverflowBlobBytesV1
  simp only [except_bind_ok, require_ok, exists_const, okOr_ok, checkedChunkOverflowBlobLen_eq_some,
    requireExactLen_ok, blobBytes_length, hstored.validate, Except.ok.injEq]
  constructor
  · rintro ⟨hstart, -, hstop, blobLen, hlen, rfl, hexact, rfl⟩
    refine ⟨⟨?_, ?_, hstart, hstop⟩, rfl⟩
    · rw [← UInt32.toNat_inj, toNat_entryCount hsize]
      rw [← hexact, ChunkOverflowBlobV1.size] at hlen
      unfold overflowChunkEntryV1Len at hlen
      omega
    · rw [← UInt32.toNat_inj, toNat_size hsize, hexact]
  · rintro ⟨⟨hcount, hlen, hstart, hstop⟩, rfl⟩
    refine ⟨hstart, by omega, hstop, locator.blobLen, ?_, rfl, ?_, rfl⟩
    · rw [hlen, toNat_size hsize, hcount, toNat_entryCount hsize, ChunkOverflowBlobV1.size]
    · rw [hlen, toNat_size hsize]

theorem validateTouchedBlobIdentity_ok {u : Unit} :
    validateTouchedBlobIdentity blob.validated locator = .ok u ↔
      blob.seriesRef = locator.seriesRef ∧
        ofNat blob.entries.length = locator.chunkCount := by
  unfold validateTouchedBlobIdentity
  simp only [except_bind_ok, require_ok, exists_const]
  rfl

theorem Locates.visitTouched (h : Locates root locator blob)
    (hstored : blob.Stored root.seriesCount) {σ : Type}
    (visit : σ → OverflowChunkEntryV1 → Except IoError σ) (state : σ) :
    visitTouchedChunkOverflowBlobV1 crc (blobBytes crc blob) root locator visit state =
      blob.entries.foldlM visit state := by
  have hvalidate : validateTouchedChunkOverflowBlobBytesV1 crc (blobBytes crc blob) root locator =
      .ok blob.validated :=
    (validateTouched_ok hstored).mpr ⟨⟨h.chunkCount, h.blobLen, h.start, h.stop⟩, rfl⟩
  have hidentity : validateTouchedBlobIdentity blob.validated locator = .ok () :=
    validateTouchedBlobIdentity_ok.mpr ⟨h.seriesRef.symm, h.chunkCount.symm⟩
  unfold visitTouchedChunkOverflowBlobV1
  rw [hvalidate]
  simp only [bind, Except.bind, hstored.visitEntries]
  cases blob.entries.foldlM visit state with
  | error error => rfl
  | ok visited =>
    simp only [hidentity]
    rfl

theorem locates_of_visitTouched (hstored : blob.Stored root.seriesCount) {σ : Type}
    {visit : σ → OverflowChunkEntryV1 → Except IoError σ} {state visited : σ}
    (h : visitTouchedChunkOverflowBlobV1 crc (blobBytes crc blob) root locator visit state =
      .ok visited) : Locates root locator blob := by
  unfold visitTouchedChunkOverflowBlobV1 at h
  simp only [except_bind_ok, except_pure_ok] at h
  obtain ⟨validated, hvalidate, _, -, _, hidentity, -⟩ := h
  obtain ⟨⟨hcount, hlen, hstart, hstop⟩, rfl⟩ := (validateTouched_ok hstored).mp hvalidate
  exact ⟨(validateTouchedBlobIdentity_ok.mp hidentity).1.symm, hcount, hlen, hstart, hstop⟩

theorem decodeTouched_eq (bytes : Bytes) : decodeTouchedChunkOverflowBlobV1 crc bytes root locator =
    (visitTouchedChunkOverflowBlobV1 crc bytes root locator pushOverflowEntry []).map
      fun entries => ⟨locator.seriesRef, entries⟩ := by
  unfold decodeTouchedChunkOverflowBlobV1 visitTouchedChunkOverflowBlobV1
  cases validateTouchedChunkOverflowBlobBytesV1 crc bytes root locator with
  | error error => rfl
  | ok validated =>
    simp only [bind, Except.bind]
    cases validated.visitEntries pushOverflowEntry [] with
    | error error => rfl
    | ok entries =>
      by_cases href : validated.seriesRef = locator.seriesRef
      · rw [href]
        cases validateTouchedBlobIdentity validated locator <;> rfl
      have hidentity : validateTouchedBlobIdentity validated locator = .error
          (invalidData "schema-7 overflow blob series_ref does not match hot record") := by
        simp only [validateTouchedBlobIdentity, require, if_neg href]
        rfl
      rw [hidentity]
      rfl

section
variable (hstored : blob.Stored root.seriesCount)
include hstored

theorem decodeTouched_ok_iff
    {decoded : ChunkOverflowBlobV1} :
    decodeTouchedChunkOverflowBlobV1 crc (blobBytes crc blob) root locator = .ok decoded ↔
      Locates root locator blob ∧ decoded = blob := by
  rw [decodeTouched_eq]
  constructor
  · intro h
    cases hvisit : visitTouchedChunkOverflowBlobV1 crc (blobBytes crc blob) root locator
      pushOverflowEntry [] with
    | error error =>
      rw [hvisit] at h
      cases h
    | ok entries =>
      have hlocates := locates_of_visitTouched hstored hvisit
      rw [hlocates.visitTouched hstored, foldlM_push, hlocates.seriesRef] at h
      exact ⟨hlocates, (Except.ok.inj h).symm⟩
  · rintro ⟨hlocates, rfl⟩
    rw [hlocates.visitTouched hstored, foldlM_push, hlocates.seriesRef]
    rfl

theorem visitPhysical_eq {blobOffset : UInt64}
    (hstart : chunkOverflowBlobsOffset ≤ blobOffset)
    (hstop : blobOffset.toNat + blob.size ≤ root.fileLen.toNat) {σ : Type}
    (visit : TouchedOverflowBlobFactsV1 → σ → OverflowChunkEntryV1 → Except IoError σ)
    (state : σ) :
    visitPhysicalChunkOverflowBlobV1 crc (blobBytes crc blob) root blobOffset visit state =
      (blob.entries.foldlM (visit ⟨blob.seriesRef, ofNat blob.entries.length⟩) state).map
        fun visited => (⟨blob.seriesRef, ofNat blob.entries.length⟩, visited) := by
  have hfile := root.fileLen.toNat_lt
  have hlt : blobOffset.toNat + blob.size < 2 ^ 64 := by omega
  unfold visitPhysicalChunkOverflowBlobV1
  simp only [blobBytes_length, require_pos hstart, require_pos hlt, require_pos hstop,
    hstored.validate, bind, Except.bind, hstored.visitEntries]
  simp only [ChunkOverflowBlobV1.validated]
  cases blob.entries.foldlM (visit ⟨blob.seriesRef, ofNat blob.entries.length⟩) state <;> rfl

theorem visitPhysical_facts {blobOffset : UInt64} {σ : Type}
    {visit : TouchedOverflowBlobFactsV1 → σ → OverflowChunkEntryV1 → Except IoError σ}
    {state visited : σ} {facts : TouchedOverflowBlobFactsV1}
    (h : visitPhysicalChunkOverflowBlobV1 crc (blobBytes crc blob) root blobOffset visit state =
      .ok (facts, visited)) :
    facts = ⟨blob.seriesRef, ofNat blob.entries.length⟩ := by
  unfold visitPhysicalChunkOverflowBlobV1 at h
  simp only [except_bind_ok, require_ok, exists_const, except_pure_ok, hstored.validate,
    Except.ok.injEq, exists_eq_left', Prod.mk.injEq] at h
  obtain ⟨-, -, -, _, -, rfl, -⟩ := h
  rfl

end

end

/-- The locators cover a range of the file one after the other. -/
def Tiles : Nat → List ChunkOverflowBlobLocatorV1 → Nat → Prop
  | start, [], stop => start = stop
  | start, locator :: locators, stop => locator.blobOffset.toNat = start ∧
      0 < locator.blobLen.toNat ∧ Tiles (start + locator.blobLen.toNat) locators stop

section
variable {crc : Crc32c} {seriesCount : UInt32} {blob : ChunkOverflowBlobV1}
  {blobs : List ChunkOverflowBlobV1} {locator : ChunkOverflowBlobLocatorV1}

theorem tiles_locatorsFrom {offset : Nat} (hsizes : ∀ blob ∈ blobs, blob.size < 2 ^ 32)
    (hoffset : offset + regionLen blobs < 2 ^ 64) :
    Tiles offset (locatorsFrom offset blobs) (offset + regionLen blobs) := by
  induction blobs generalizing offset with
  | nil => exact rfl
  | cons blob blobs ih =>
    obtain ⟨hsize, hblobs⟩ := forall_mem_cons.mp hsizes
    rw [regionLen_cons] at hoffset ⊢
    have hrest := ih hblobs (show offset + blob.size + regionLen blobs < 2 ^ 64 by omega)
    refine ⟨UInt64.toNat_ofNat_of_lt' (show offset < 2 ^ 64 by omega), ?_, ?_⟩
    · change 0 < (ofNat blob.size).toNat
      rw [toNat_size hsize]
      exact size_pos blob
    · change Tiles (offset + (ofNat blob.size).toNat) _ _
      rw [toNat_size hsize, ← add_assoc]
      exact hrest

theorem locatorsFrom_getElem? {offset i : Nat} (hsizes : ∀ blob ∈ blobs, blob.size < 2 ^ 32)
    (hoffset : offset + regionLen blobs < 2 ^ 64) (hblob : blobs[i]? = some blob)
    (hlocator : (locatorsFrom offset blobs)[i]? = some locator) :
    ∃ start, locator = locatorAt start blob ∧ offset ≤ start ∧
      start + blob.size ≤ offset + regionLen blobs ∧
      fieldAt (region crc blobs) (start - offset) blob.size = blobBytes crc blob := by
  induction blobs generalizing offset i with
  | nil => cases hblob
  | cons first blobs ih =>
    obtain ⟨hsize, hblobs⟩ := forall_mem_cons.mp hsizes
    rw [regionLen_cons] at hoffset ⊢
    cases i with
    | zero =>
      obtain rfl := Option.some.inj hblob
      obtain rfl := Option.some.inj hlocator
      refine ⟨offset, rfl, Nat.le_refl _, by omega, ?_⟩
      rw [Nat.sub_self, region_cons]
      exact fieldAt_left (blobBytes_length crc first).symm
    | succ i =>
      obtain ⟨start, heq, hle, hstop, hfield⟩ :=
        @ih (offset + first.size) i hblobs (by omega) hblob hlocator
      refine ⟨start, heq, by omega, by omega, ?_⟩
      rw [region_cons, fieldAt_append_right (by rw [blobBytes_length]; omega), blobBytes_length,
        Nat.sub_sub]
      exact hfield

theorem slice_indexOf {i : Nat} (hfit : BlobsFit blobs) (hblob : blobs[i]? = some blob)
    (hlocator : (indexOf crc seriesCount blobs).blobLocators[i]? = some locator) :
    Locates (indexRoot crc seriesCount blobs) locator blob ∧
      fieldAt (indexOf crc seriesCount blobs).bytes locator.blobOffset.toNat
        locator.blobLen.toNat = blobBytes crc blob := by
  have hfile := hfit.file
  have hsize := hfit.blob blob (mem_of_getElem? hblob)
  obtain ⟨start, rfl, hle, hstop, hfield⟩ :=
    @locatorsFrom_getElem? crc blob blobs locator _ i hfit.blob hfile hblob hlocator
  have hstart : (locatorAt start blob).blobOffset.toNat = start :=
    UInt64.toNat_ofNat_of_lt' (show start < 2 ^ 64 by omega)
  have hlen : (locatorAt start blob).blobLen.toNat = blob.size := toNat_size hsize
  have hfileLen : (indexRoot crc seriesCount blobs).fileLen.toNat =
      chunkOverflowBlobsOffset.toNat + regionLen blobs := by
    change (chunkOverflowBlobsOffset + UInt64.ofNat (regionLen blobs)).toNat = _
    rw [UInt64.toNat_add, hfit.toNat_regionLen, mod_eq_of_lt hfile]
  constructor
  · refine ⟨rfl, rfl, rfl, ?_, ?_⟩
    · rw [UInt64.le_iff_toNat_le, hstart]
      exact hle
    · rw [hstart, hlen, hfileLen]
      exact hstop
  · rw [hstart, hlen, indexOf, fieldAt_append_right, rootBytes_length]
    · exact hfield
    · rw [rootBytes_length]
      exact hle

theorem locatorsFrom_seriesRef (offset : Nat) (blobs : List ChunkOverflowBlobV1) :
    (locatorsFrom offset blobs).map ChunkOverflowBlobLocatorV1.seriesRef =
      blobs.map ChunkOverflowBlobV1.seriesRef := by
  induction blobs generalizing offset with
  | nil => rfl
  | cons blob blobs ih => rw [locatorsFrom, map_cons, map_cons, ih]; rfl

theorem seriesRef_ne_of_ne {i : Nat} {other : ChunkOverflowBlobLocatorV1}
    (hvalid : BlobsValid seriesCount blobs)
    (hlocator : (indexOf crc seriesCount blobs).blobLocators[i]? = some locator)
    (hother : other ∈ (indexOf crc seriesCount blobs).blobLocators) (hne : other ≠ locator) :
    other.seriesRef ≠ locator.seriesRef := by
  have hpairwise : ((indexOf crc seriesCount blobs).blobLocators.map
      ChunkOverflowBlobLocatorV1.seriesRef).Nodup := by
    rw [indexOf, locatorsFrom_seriesRef]
    exact hvalid.ordered.imp fun {a b} (hlt : a < b) => UInt32.ne_of_lt hlt
  intro heq
  exact hne (inj_on_of_nodup_map hpairwise hother (mem_of_getElem? hlocator) heq)

/-- The chunk index is canonical: a byte string is accepted exactly when the encoder writes it for
the blobs it decodes to. The locators cover the region behind the root, and the slice of one decodes
to its blob under no other locator. -/
theorem chunkIndexV2_canonical (crc : Crc32c) :
    (∀ bytes, (∃ decoded, decodeChunkIndexV2 crc bytes = .ok decoded) ↔
      ∃ seriesCount blobs encoded, BlobsValid seriesCount blobs ∧
        encodeChunkIndexV2 crc seriesCount blobs = .ok encoded ∧ bytes = encoded.bytes) ∧
    ∀ seriesCount blobs encoded, encodeChunkIndexV2 crc seriesCount blobs = .ok encoded →
      decodeChunkIndexV2 crc encoded.bytes = .ok ⟨encoded.root, blobs, encoded.blobLocators⟩ ∧
      encoded.blobLocators.length = blobs.length ∧
      Tiles chunkOverflowRootV2Len encoded.blobLocators encoded.bytes.length ∧
      ∀ (i : Nat) blob locator slice, blobs[i]? = some blob → encoded.blobLocators[i]? = some locator →
        slice = fieldAt encoded.bytes locator.blobOffset.toNat locator.blobLen.toNat →
        decodeTouchedChunkOverflowBlobV1 crc slice encoded.root locator = .ok blob ∧
        (∀ (σ : Type) (visit : σ → OverflowChunkEntryV1 → Except IoError σ) state,
          visitTouchedChunkOverflowBlobV1 crc slice encoded.root locator visit state =
            blob.entries.foldlM visit state) ∧
        (∀ (σ : Type) (visit : TouchedOverflowBlobFactsV1 → σ → OverflowChunkEntryV1 →
            Except IoError σ) state,
          visitPhysicalChunkOverflowBlobV1 crc slice encoded.root locator.blobOffset visit state =
            (blob.entries.foldlM (visit ⟨locator.seriesRef, locator.chunkCount⟩) state).map
              fun visited => (⟨locator.seriesRef, locator.chunkCount⟩, visited)) ∧
        (∀ other ∈ encoded.blobLocators, other ≠ locator →
          (∀ decoded, decodeTouchedChunkOverflowBlobV1 crc slice encoded.root other ≠ .ok decoded) ∧
          (∀ (σ : Type) (visit : σ → OverflowChunkEntryV1 → Except IoError σ) state visited,
            visitTouchedChunkOverflowBlobV1 crc slice encoded.root other visit state ≠
              .ok visited) ∧
          ∀ (σ : Type) (visit : TouchedOverflowBlobFactsV1 → σ → OverflowChunkEntryV1 →
              Except IoError σ) state facts visited,
            visitPhysicalChunkOverflowBlobV1 crc slice encoded.root other.blobOffset visit state =
              .ok (facts, visited) → facts.seriesRef ≠ other.seriesRef) ∧
        ∀ other, (∃ decoded,
            decodeTouchedChunkOverflowBlobV1 crc slice encoded.root other = .ok decoded) ↔
          other.seriesRef = locator.seriesRef ∧ other.chunkCount = locator.chunkCount ∧
            other.blobLen = locator.blobLen ∧ chunkOverflowBlobsOffset ≤ other.blobOffset ∧
            other.blobOffset.toNat + other.blobLen.toNat ≤ encoded.root.fileLen.toNat := by
  refine ⟨fun bytes => ?_, fun seriesCount blobs encoded hencode => ?_⟩
  · constructor
    · rintro ⟨decoded, hdecode⟩
      obtain ⟨seriesCount, hvalid, hfit, hbytes, -, -⟩ := decodeChunkIndexV2_ok.mp hdecode
      exact ⟨seriesCount, decoded.blobs, _, hvalid, encodeChunkIndexV2_ok.mpr ⟨hvalid, hfit, rfl⟩,
        hbytes⟩
    rintro ⟨seriesCount, blobs, encoded, -, hencode, rfl⟩
    obtain ⟨hvalid, hfit, rfl⟩ := encodeChunkIndexV2_ok.mp hencode
    let index := indexOf crc seriesCount blobs
    exact ⟨⟨index.root, blobs, index.blobLocators⟩,
      decodeChunkIndexV2_ok.mpr ⟨seriesCount, hvalid, hfit, rfl, rfl, rfl⟩⟩
  obtain ⟨hvalid, hfit, rfl⟩ := encodeChunkIndexV2_ok.mp hencode
  refine ⟨decodeChunkIndexV2_ok.mpr ⟨seriesCount, hvalid, hfit, rfl, rfl, rfl⟩,
    locatorsFrom_length .., ?_, ?_⟩
  · rw [indexOf_length]
    exact tiles_locatorsFrom hfit.blob hfit.file
  intro i blob locator slice hblob hlocator hslice
  obtain ⟨hlocates, hfield⟩ := @slice_indexOf crc seriesCount blob blobs locator i hfit hblob hlocator
  rw [hfield] at hslice
  subst hslice
  have hstored : blob.Stored (indexRoot crc seriesCount blobs).seriesCount :=
    (stored_iff.mpr ⟨hvalid, hfit⟩).2.1 blob (mem_of_getElem? hblob)
  have hfacts : (⟨locator.seriesRef, locator.chunkCount⟩ : TouchedOverflowBlobFactsV1) =
      ⟨blob.seriesRef, ofNat blob.entries.length⟩ := by
    rw [hlocates.seriesRef, hlocates.chunkCount]
  refine ⟨(decodeTouched_ok_iff hstored).mpr ⟨hlocates, rfl⟩,
    fun σ visit state => hlocates.visitTouched hstored visit state, fun σ visit state => ?_,
    fun other hother hne => ?_, fun other => ?_⟩
  · rw [hfacts]
    have hstop := hlocates.stop
    rw [hlocates.blobLen, toNat_size hstored.size_lt] at hstop
    exact visitPhysical_eq hstored hlocates.start hstop visit state
  · have hneSeries : other.seriesRef ≠ blob.seriesRef :=
      hlocates.seriesRef ▸ seriesRef_ne_of_ne hvalid hlocator hother hne
    refine ⟨fun decoded hok => ?_, fun σ visit state visited hok => ?_,
      fun σ visit state facts visited hok => ?_⟩
    · exact hneSeries ((decodeTouched_ok_iff hstored).mp hok).1.seriesRef
    · exact hneSeries (locates_of_visitTouched hstored hok).seriesRef
    · rw [visitPhysical_facts hstored hok]
      exact fun heq => hneSeries heq.symm
  constructor
  · rintro ⟨decoded, hok⟩
    have hother := ((decodeTouched_ok_iff hstored).mp hok).1
    refine ⟨?_, ?_, ?_, hother.start, hother.stop⟩
    · rw [hother.seriesRef, hlocates.seriesRef]
    · rw [hother.chunkCount, hlocates.chunkCount]
    · rw [hother.blobLen, hlocates.blobLen]
  · rintro ⟨href, hcount, hlen, hstart, hstop⟩
    refine ⟨blob, (decodeTouched_ok_iff hstored).mpr ⟨⟨?_, ?_, ?_, hstart, hstop⟩, rfl⟩⟩
    · rw [href, hlocates.seriesRef]
    · rw [hcount, hlocates.chunkCount]
    · rw [hlen, hlocates.blobLen]

/-- A series with two chunks and one with a histogram that has a scalar lane: the slice of the first
blob is read under its own locator and not under the other. -/
theorem chunkIndexV2_canonical_two_blobs :
    let crc : Crc32c := ⟨fun _ => 0, fun _ _ => 0, fun _ _ => rfl⟩
    let first : ChunkOverflowBlobV1 :=
      ⟨0, [⟨0, .float, 1, 2, 0, 40, 0, 0, 7⟩, ⟨0, .float, 2, 5, 54, 40, 0, 0, 8⟩]⟩
    let second : ChunkOverflowBlobV1 := ⟨2, [⟨1, .histogram, 1, 2, 0, 100, 40, 50, 9⟩]⟩
    ∃ encoded locator other, encodeChunkIndexV2 crc 3 [first, second] = .ok encoded ∧
      decodeChunkIndexV2 crc encoded.bytes =
        .ok ⟨encoded.root, [first, second], [locator, other]⟩ ∧
      Tiles chunkOverflowRootV2Len [locator, other] encoded.bytes.length ∧
      ∃ slice, slice = fieldAt encoded.bytes locator.blobOffset.toNat locator.blobLen.toNat ∧
        decodeTouchedChunkOverflowBlobV1 crc slice encoded.root locator = .ok first ∧
        ∀ decoded, decodeTouchedChunkOverflowBlobV1 crc slice encoded.root other ≠ .ok decoded := by
  intro crc first second
  obtain ⟨encoded, hencode⟩ : ∃ encoded, encodeChunkIndexV2 crc 3 [first, second] = .ok encoded :=
    exists_of_isOk (by decide +kernel)
  obtain ⟨hdecode, hlength, htiles, hslices⟩ :=
    (chunkIndexV2_canonical crc).2 3 [first, second] encoded hencode
  obtain ⟨locator, other, hlocators⟩ := length_eq_two.mp hlength
  rw [hlocators] at hdecode htiles hslices
  obtain ⟨hread, -, -, hothers, -⟩ := hslices 0 first locator _ rfl rfl rfl
  refine ⟨encoded, locator, other, hencode, hdecode, htiles, _, rfl, hread, ?_⟩
  refine (hothers other (by simp) ?_).1
  rintro rfl
  obtain ⟨hstart, hpositive, hnext, -⟩ := htiles
  omega

end

end Chronoxide
