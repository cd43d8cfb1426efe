import Chronoxide.Chunk.RoundTrip
import Chronoxide.Collections.StableSort
import Chronoxide.Encoding.Fields
import Chronoxide.Head.Block
import Mathlib.Data.Prod.Lex

/-! The chunk payload file of a segment while it is sealed (`segment/writer/ordering.rs`). The
frames are put in the order of the final series, those of one series in the order of their time
spans, and each record gets the final reference of its series. -/

namespace Chronoxide
open Codec StableSort ChunkIndexEntry List UInt32

def placeSeriesRef (refs : List (Option UInt32)) (entry : Nat × Nat) :
    Except IoError (List (Option UInt32)) := do
  let (oldRef, newRef) := entry
  let slot ← okOr refs[oldRef]? (invalidData "series order contains out-of-range ref")
  require (slot = none) (invalidData "series order contains duplicate ref")
  require (newRef < 2 ^ 32) (invalidInput "series_ref exceeds u32")
  return refs.set oldRef (some (UInt32.ofNat newRef))

def oldToNewSeriesRefs (order : List Nat) : Except IoError (List UInt32) := do
  let refs ← order.zipIdx.foldlM placeSeriesRef (List.replicate order.length none)
  refs.mapM fun seriesRef => okOr seriesRef (invalidData "series order is missing a ref")

def takeSlot {α : Type} (name : String) (state : List (Option α) × List α) (oldRef : Nat) :
    Except IoError (List (Option α) × List α) := do
  let slot ← okOr state.1[oldRef]? (invalidData (name ++ " order contains out-of-range ref"))
  let item ← okOr slot (invalidData (name ++ " order contains duplicate ref"))
  return (state.1.set oldRef none, state.2 ++ [item])

def reorderVecByOldIndices {α : Type} (items : List α) (order : List Nat) (name : String) :
    Except IoError (List α) := do
  require (items.length = order.length)
    (invalidData (name ++ " count does not match series order"))
  let (_, ordered) ← order.foldlM (takeSlot name) (items.map some, [])
  return ordered

def chunkEntryTimeOrder (left right : ChunkIndexEntry) : Ordering :=
  (compare left.fileId right.fileId).then <|
    (compare left.minTimeMs right.minTimeMs).then <|
      (compare left.maxTimeMs right.maxTimeMs).then (compare left.offset right.offset)

def sortChunkEntries (entries : List ChunkIndexEntry) : List ChunkIndexEntry :=
  entries.mergeSort fun left right => (chunkEntryTimeOrder left right).isLE

variable (chunkEntries : List (List ChunkIndexEntry))

def chunksAreAlreadyIdentitySeriesMajorOrder (expectedFileId : UInt8) : Bool :=
  let all := chunkEntries.flatten
  chunkEntries.all (fun entries =>
      (entries.zip entries.tail).all fun pair => !(chunkEntryTimeOrder pair.1 pair.2).isGT) &&
    all.all (·.fileId = expectedFileId) &&
    (all.zip all.tail).all fun pair => !(pair.2.offset < pair.1.offset)

def chunksAreAlreadySeriesMajorOrder (seriesOrder : List Nat) (oldToNewRefs : List UInt32)
    (expectedFileId : UInt8) : Bool :=
  seriesOrder.zipIdx.all (fun entry => entry.1 = entry.2) &&
    oldToNewRefs.zipIdx.all (fun entry => entry.1.toNat = entry.2) &&
    chunksAreAlreadyIdentitySeriesMajorOrder chunkEntries expectedFileId

def fileReadExact (source : Bytes) (offset len : Nat) : Except IoError Bytes :=
  okOr (getRange source offset (offset + len)) (unexpectedEof "failed to fill whole buffer")

/-- The frame as it is written again, the entry at its new place and the length of the frame. -/
def rewriteSingleChunkFrame (crc32c : Bytes → UInt32) (source : Bytes) (outputOffset : UInt64)
    (entry : ChunkIndexEntry) (newRef : UInt32) (expectedFileId : UInt8) :
    Except IoError (Bytes × ChunkIndexEntry × UInt32) := do
  require (entry.fileId = expectedFileId)
    (invalidData "series-major chunk rewrite found an entry in the wrong payload lane")
  require (chunkHeaderLen ≤ entry.length.toNat)
    (invalidData "chunk entry length is shorter than chunk header")
  require (frameHeaderLen ≤ entry.offset.toNat) (invalidData "chunk offset before frame")
  let frameHeader ← fileReadExact source (entry.offset.toNat - frameHeaderLen) frameHeaderLen
  let frameLen := readU32At frameHeader 0
  let numChunks := readU32At frameHeader 10
  require (numChunks = 1 ∧ frameLen.toNat = frameHeaderLen + entry.length.toNat)
    (invalidData "series-major chunk rewrite requires single-chunk frames")
  let chunkPayload ← fileReadExact source entry.offset.toNat entry.length.toNat
  let chunkPayload := overwrite chunkPayload 4 (u32ToLe newRef)
  let frameHeader := overwrite frameHeader 4 (u32ToLe (crc32c chunkPayload))
  let chunkOffset := saturatingAdd outputOffset (UInt64.ofNat frameHeaderLen)
  return (frameHeader ++ chunkPayload, { entry with offset := chunkOffset }, frameLen)

section
variable (crc32c : Bytes → UInt32) (source : Bytes) (expectedFileId : UInt8)

def rewriteEntries (newRef : UInt32) :
    List ChunkIndexEntry → Bytes × UInt64 →
      Except IoError (List ChunkIndexEntry × (Bytes × UInt64))
  | [], output => .ok ([], output)
  | entry :: entries, (rewritten, outputOffset) => do
    let (frame, entry, frameLen) ←
      rewriteSingleChunkFrame crc32c source outputOffset entry newRef expectedFileId
    let (entries, output) ← rewriteEntries newRef entries
      (rewritten ++ frame, saturatingAdd outputOffset frameLen.toUInt64)
    return (entry :: entries, output)

def rewriteSeries (oldToNewRefs : List UInt32) :
    List Nat → List (List ChunkIndexEntry) → Bytes × UInt64 →
      Except IoError (List (List ChunkIndexEntry) × (Bytes × UInt64))
  | [], chunkEntries, output => .ok (chunkEntries, output)
  | oldRef :: order, chunkEntries, output => do
    let newRef ← okOr oldToNewRefs[oldRef]?
      (invalidData "series order contains ref missing from ref map")
    let entries ← okOr chunkEntries[oldRef]?
      (invalidData "series order contains ref missing from chunk entries")
    let (entries, output) ←
      rewriteEntries crc32c source expectedFileId newRef (sortChunkEntries entries) output
    rewriteSeries oldToNewRefs order (chunkEntries.set oldRef entries) output

def rewriteChunksInSeriesMajorOrder (chunkEntries : List (List ChunkIndexEntry))
    (seriesOrder : List Nat) (oldToNewRefs : List UInt32) :
    Except IoError (Bytes × List (List ChunkIndexEntry)) := do
  require (chunkEntries.length = oldToNewRefs.length ∧ chunkEntries.length = seriesOrder.length)
    (invalidData "chunk entry count does not match final series order")
  if chunksAreAlreadySeriesMajorOrder chunkEntries seriesOrder oldToNewRefs expectedFileId then
    return (source, chunkEntries)
  else
    let (chunkEntries, rewritten, _) ←
      rewriteSeries crc32c source expectedFileId oldToNewRefs seriesOrder chunkEntries ([], 0)
    return (rewritten, chunkEntries)

def rewriteChunksInIdentitySeriesOrder (chunkEntries : List (List ChunkIndexEntry)) :
    Except IoError (Bytes × List (List ChunkIndexEntry)) :=
  if chunksAreAlreadyIdentitySeriesMajorOrder chunkEntries expectedFileId then
    .ok (source, chunkEntries)
  else do
    let seriesOrder := List.range chunkEntries.length
    let oldToNewRefs ← oldToNewSeriesRefs seriesOrder
    rewriteChunksInSeriesMajorOrder crc32c source expectedFileId chunkEntries seriesOrder
      oldToNewRefs

end

def ChunkIndexEntry.timeKey (e : ChunkIndexEntry) : ℕ ×ₗ ℕ ×ₗ ℕ ×ₗ ℕ :=
  toLex (e.fileId.toNat, toLex (e.minTimeMs.toNat, toLex (e.maxTimeMs.toNat, e.offset.toNat)))

theorem isLE_compare_then {α : Type} [LT α] [DecidableLT α] [DecidableEq α] {f : α → Nat}
    (hlt : ∀ a b : α, a < b ↔ f a < f b) (heq : ∀ a b : α, a = b ↔ f a = f b) (a b : α)
    (rest : Ordering) :
    ((compareOfLessAndEq a b).then rest).isLE ↔ f a < f b ∨ f a = f b ∧ rest.isLE := by
  unfold compareOfLessAndEq
  by_cases h : a < b
  · simp [h, (hlt a b).mp h]
  by_cases h' : a = b
  · subst h'
    simp [h]
  · simp [h, h', (hlt a b).not.mp h, (heq a b).not.mp h']

theorem chunkEntryTimeOrder_isLE (left right : ChunkIndexEntry) :
    (chunkEntryTimeOrder left right).isLE ↔ left.timeKey ≤ right.timeKey := by
  have h64 := fun (a b : UInt64) (rest : Ordering) => isLE_compare_then (α := UInt64)
    (fun a b => UInt64.lt_iff_toNat_lt) (fun a b => UInt64.toNat_inj.symm) a b rest
  have h8 := fun (a b : UInt8) (rest : Ordering) => isLE_compare_then (α := UInt8)
    (fun a b => UInt8.lt_iff_toNat_lt) (fun a b => UInt8.toNat_inj.symm) a b rest
  have hlast : (compare left.offset right.offset).isLE ↔
      left.offset.toNat ≤ right.offset.toNat := by
    have := h64 left.offset right.offset .eq
    rw [Ordering.then_eq] at this
    exact this.trans (by simp [le_iff_lt_or_eq])
  unfold chunkEntryTimeOrder timeKey
  rw [Prod.Lex.toLex_le_toLex, Prod.Lex.toLex_le_toLex, Prod.Lex.toLex_le_toLex, ← hlast]
  exact (h8 ..).trans (or_congr_right (and_congr_right fun _ =>
    (h64 ..).trans (or_congr_right (and_congr_right fun _ => h64 ..))))

theorem sortChunkEntries_eq (entries : List ChunkIndexEntry) :
    sortChunkEntries entries = sortByKey timeKey entries := by
  rw [sortChunkEntries, sortByKey]
  congr 1
  funext left right
  rw [Bool.eq_iff_iff, decide_eq_true_eq]
  exact chunkEntryTimeOrder_isLE left right

def setSeriesRef (record : Bytes) (newRef : UInt32) : Bytes := overwrite record 4 (u32ToLe newRef)

structure FrameAt (crc32c : Bytes → UInt32) (file : Bytes) (e : ChunkIndexEntry)
    (record : Bytes) : Prop where
  length_eq : e.length.toNat = record.length
  frame_lt : frameHeaderLen + record.length < 2 ^ 32
  placed : ∃ before after, file = before ++ (encodeFrame crc32c record ++ after) ∧
    e.start = before.length + frameHeaderLen

section
variable {crc32c : Bytes → UInt32} {file source : Bytes} {e : ChunkIndexEntry} {record : Bytes}

theorem FrameAt.append (h : FrameAt crc32c file e record) (tail : Bytes) :
    FrameAt crc32c (file ++ tail) e record := by
  obtain ⟨before, after, rfl, hstart⟩ := h.placed
  exact ⟨h.length_eq, h.frame_lt, before, after ++ tail, by simp only [append_assoc], hstart⟩

theorem FrameAt.bytes_eq (h : FrameAt crc32c file e record) : e.bytes file = record := by
  obtain ⟨before, after, rfl, hstart⟩ := h.placed
  have hheader := encodeFrameHeader_length (ofNat (frameHeaderLen + record.length))
    (crc32c record)
  have hstop : e.stop = e.start + record.length := by
    rw [← h.length_eq]
    rfl
  rw [bytes, slice, hstop, hstart, encodeFrame, append_assoc,
    ← append_assoc before, ← append_assoc, take_left', drop_left']
  · rw [length_append, hheader]
  · rw [length_append, length_append, hheader]

theorem setSeriesRef_length (h : 8 ≤ record.length) (newRef : UInt32) :
    (setSeriesRef record newRef).length = record.length := by
  simp only [setSeriesRef, overwrite, length_append, length_take, length_drop, u32ToLe_length]
  omega

theorem encodeFrame_setSeriesRef (h : 8 ≤ record.length) (newRef : UInt32) :
    overwrite (encodeFrameHeader (ofNat (frameHeaderLen + record.length)) (crc32c record)) 4
        (u32ToLe (crc32c (setSeriesRef record newRef))) ++ setSeriesRef record newRef =
      encodeFrame crc32c (setSeriesRef record newRef) := by
  rw [encodeFrameHeader, overwrite_append (by simp) (by simp), encodeFrame,
    setSeriesRef_length h, encodeFrameHeader]

theorem fileReadExact_middle {before field after : Bytes} {offset len : Nat}
    (hsource : source = before ++ (field ++ after)) (hoffset : offset = before.length)
    (hlen : len = field.length) : fileReadExact source offset len = .ok field := by
  subst hsource hoffset hlen
  have hrange : getRange (before ++ (field ++ after)) before.length
      (before.length + field.length) = some field := by
    refine getRange_eq_some.mpr ⟨Nat.le_add_right .., ?_, ?_⟩
    · simp only [length_append]
      omega
    · rw [Nat.add_sub_cancel_left]
      exact fieldAt_middle field rfl rfl
  rw [fileReadExact, hrange]
  rfl

theorem rewriteSingleChunkFrame_eq (h : FrameAt crc32c source e record)
    (hrecord : chunkHeaderLen ≤ record.length) (outputOffset : UInt64) (newRef : UInt32) :
    rewriteSingleChunkFrame crc32c source outputOffset e newRef e.fileId =
      .ok (encodeFrame crc32c (setSeriesRef record newRef),
        { e with offset := saturatingAdd outputOffset (UInt64.ofNat frameHeaderLen) },
        ofNat (frameHeaderLen + record.length)) := by
  obtain ⟨before, after, hsource, hstart⟩ := h.placed
  have hlength := h.length_eq
  have hoffset : e.offset.toNat = before.length + frameHeaderLen := hstart
  set header := encodeFrameHeader (ofNat (frameHeaderLen + record.length)) (crc32c record)
    with hheader
  have hheaderLen : header.length = frameHeaderLen := encodeFrameHeader_length ..
  have hsplit : source = before ++ (header ++ (record ++ after)) := by
    rw [hsource, encodeFrame, append_assoc]
  have hread : fileReadExact source (e.offset.toNat - frameHeaderLen) frameHeaderLen =
      .ok header := fileReadExact_middle hsplit (by omega) hheaderLen.symm
  have hpayload : fileReadExact source e.offset.toNat e.length.toNat = .ok record := by
    rw [← append_assoc] at hsplit
    refine fileReadExact_middle hsplit ?_ hlength
    rw [hoffset, length_append, hheaderLen]
  have hframeLen : readU32At header 0 = ofNat (frameHeaderLen + record.length) := by
    rw [readU32At_eq_iff (by rw [hheaderLen]; decide)]
    exact fieldAt_left (by simp)
  have hchunks : readU32At header 10 = 1 := by
    rw [readU32At_eq_iff (by rw [hheaderLen]; decide), hheader, encodeFrameHeader,
      ← append_assoc, ← append_assoc, ← append_nil (u32ToLe 1)]
    exact fieldAt_middle (u32ToLe 1) (by simp) (by simp)
  have hframe : (ofNat (frameHeaderLen + record.length)).toNat =
      frameHeaderLen + e.length.toNat := by
    rw [toNat_ofNat_of_lt' h.frame_lt, hlength]
  have height : 8 ≤ record.length := le_trans (by decide) hrecord
  have hrequire : frameHeaderLen ≤ e.offset.toNat := by
    rw [hoffset]
    exact Nat.le_add_left ..
  simp only [rewriteSingleChunkFrame, except_bind_ok, require_ok, exists_const, except_pure_ok]
  refine ⟨trivial, hlength ▸ hrecord, hrequire, header, hread, ⟨hchunks, hframeLen ▸ hframe⟩, record,
    hpayload, ?_⟩
  rw [hframeLen, ← encodeFrame_setSeriesRef height]
  rfl

end

theorem toNat_saturatingAdd {a b : UInt64} (h : a.toNat + b.toNat < 2 ^ 64) :
    (saturatingAdd a b).toNat = a.toNat + b.toNat := by
  rw [saturatingAdd, if_pos h, UInt64.toNat_add, Nat.mod_eq_of_lt h]

def ChunkIndexEntry.frameLength (e : ChunkIndexEntry) : Nat := frameHeaderLen + e.length.toNat

section
variable (crc32c : Bytes → UInt32) (source : Bytes)

/-- An entry that points at a frame of the file that is sealed. -/
structure SourceFrame (fileId : UInt8) (e : ChunkIndexEntry) : Prop where
  frame : FrameAt crc32c source e (e.bytes source)
  header_le : chunkHeaderLen ≤ e.length.toNat
  fileId_eq : e.fileId = fileId

/-- An entry before and after: it points at the same record under the new reference. -/
structure Rewritten (newRef : UInt32) (file : Bytes) (e e' : ChunkIndexEntry) : Prop where
  frame : FrameAt crc32c file e' (setSeriesRef (e.bytes source) newRef)
  same : e' = { e with offset := e'.offset }

end

variable {order : List Nat}

section
variable {crc32c : Bytes → UInt32} {source : Bytes} {fileId : UInt8} {file : Bytes}

theorem Rewritten.append {newRef : UInt32} {e e' : ChunkIndexEntry}
    (h : Rewritten crc32c source newRef file e e') (tail : Bytes) :
    Rewritten crc32c source newRef (file ++ tail) e e' := ⟨h.frame.append tail, h.same⟩

theorem rewriteSingleChunkFrame_spec {e : ChunkIndexEntry} (h : SourceFrame crc32c source fileId e)
    {offset : UInt64} (hoffset : offset.toNat = file.length)
    (hroom : file.length + e.frameLength < 2 ^ 64) (newRef : UInt32) :
    ∃ frame e' frameLen,
      rewriteSingleChunkFrame crc32c source offset e newRef fileId = .ok (frame, e', frameLen) ∧
      frame.length = e.frameLength ∧
      (saturatingAdd offset frameLen.toUInt64).toNat = (file ++ frame).length ∧
      Rewritten crc32c source newRef (file ++ frame) e e' := by
  have hrecord : chunkHeaderLen ≤ (e.bytes source).length := by
    rw [← h.frame.length_eq]
    exact h.header_le
  have height : 8 ≤ (e.bytes source).length := le_trans (by decide) hrecord
  have hstored := setSeriesRef_length height newRef
  have hframe : (encodeFrame crc32c (setSeriesRef (e.bytes source) newRef)).length =
      e.frameLength := by
    rw [encodeFrame_length, hstored, ← h.frame.length_eq]
    rfl
  have hlt : frameHeaderLen + (e.bytes source).length < 2 ^ 32 := h.frame.frame_lt
  have hframeLen : (ofNat (frameHeaderLen + (e.bytes source).length)).toUInt64.toNat =
      e.frameLength := by
    rw [toNat_toUInt64, toNat_ofNat_of_lt' hlt, ← h.frame.length_eq]
    rfl
  have hheader : (UInt64.ofNat frameHeaderLen).toNat = frameHeaderLen := rfl
  have hstart : (saturatingAdd offset (UInt64.ofNat frameHeaderLen)).toNat =
      file.length + frameHeaderLen := by
    rw [frameLength] at hroom
    rw [toNat_saturatingAdd, hoffset, hheader]
    rw [hoffset, hheader]
    omega
  refine ⟨encodeFrame crc32c (setSeriesRef (e.bytes source) newRef),
    { e with offset := saturatingAdd offset (UInt64.ofNat frameHeaderLen) },
    ofNat (frameHeaderLen + (e.bytes source).length), ?_, hframe, ?_, ?_, rfl⟩
  · rw [← h.fileId_eq]
    exact rewriteSingleChunkFrame_eq h.frame hrecord offset newRef
  · rw [length_append, hframe, toNat_saturatingAdd, hframeLen, hoffset]
    rwa [hframeLen, hoffset]
  refine ⟨?_, ?_, file, [], by rw [append_nil], hstart⟩
  · rw [hstored, ← h.frame.length_eq]
  · rw [hstored]
    exact hlt

theorem rewriteEntries_spec (newRef : UInt32) {entries : List ChunkIndexEntry}
    (hframes : ∀ e ∈ entries, SourceFrame crc32c source fileId e) {offset : UInt64}
    (hoffset : offset.toNat = file.length)
    (hroom : file.length + (entries.map frameLength).sum < 2 ^ 64) :
    ∃ entries' tail offset',
      rewriteEntries crc32c source fileId newRef entries (file, offset) =
        .ok (entries', (file ++ tail, offset')) ∧
      offset'.toNat = (file ++ tail).length ∧
      tail.length = (entries.map frameLength).sum ∧
      List.Forall₂ (Rewritten crc32c source newRef (file ++ tail)) entries entries' := by
  induction entries generalizing file offset with
  | nil =>
    exact ⟨[], [], offset, by rw [append_nil]; rfl, by rwa [append_nil], rfl, .nil⟩
  | cons e entries ih =>
    rw [map_cons, sum_cons] at hroom
    obtain ⟨frame, e', frameLen, hrewrite, hframe, hnext, hrewritten⟩ :=
      rewriteSingleChunkFrame_spec (hframes e (mem_cons_self ..)) hoffset (by omega) newRef
    obtain ⟨entries', tail, offset', hrest, hoffset', htail, hall⟩ :=
      ih (fun e he => hframes e (mem_cons_of_mem _ he)) hnext
        (by rw [length_append, hframe]; omega)
    rw [append_assoc] at hrest hoffset' hall
    refine ⟨e' :: entries', frame ++ tail, offset', ?_, hoffset', ?_, .cons ?_ hall⟩
    · exact except_bind_ok.mpr ⟨_, hrewrite, except_bind_ok.mpr ⟨_, hrest, rfl⟩⟩
    · rw [length_append, hframe, htail, map_cons, sum_cons]
    · rw [← append_assoc]
      exact hrewritten.append tail

def framesLength (chunkEntries : List (List ChunkIndexEntry)) (oldRef : Nat) : Nat :=
  ((chunkEntries[oldRef]?.getD []).map ChunkIndexEntry.frameLength).sum

def RewrittenSeries (crc32c : Bytes → UInt32) (source file : Bytes) (oldToNewRefs : List UInt32)
    (before after : List (List ChunkIndexEntry)) (oldRef : Nat) : Prop :=
  ∃ newRef entries entries', oldToNewRefs[oldRef]? = some newRef ∧
    before[oldRef]? = some entries ∧ after[oldRef]? = some entries' ∧
    List.Forall₂ (Rewritten crc32c source newRef file) (sortChunkEntries entries) entries'

theorem sum_sortChunkEntries (entries : List ChunkIndexEntry) :
    ((sortChunkEntries entries).map frameLength).sum =
      (entries.map frameLength).sum := by
  rw [sortChunkEntries_eq]
  exact ((sortByKey_perm entries).map _).sum_nat

theorem rewriteSeries_spec {oldToNewRefs : List UInt32} (hnodup : order.Nodup)
    {chunkEntries : List (List ChunkIndexEntry)}
    (hrange : ∀ oldRef ∈ order, oldRef < chunkEntries.length ∧ oldRef < oldToNewRefs.length)
    (hframes : ∀ oldRef ∈ order, ∀ e ∈ chunkEntries[oldRef]?.getD [],
      SourceFrame crc32c source fileId e)
    {offset : UInt64} (hoffset : offset.toNat = file.length)
    (hroom : file.length + (order.map (framesLength chunkEntries)).sum < 2 ^ 64) :
    ∃ chunkEntries' tail offset',
      rewriteSeries crc32c source fileId oldToNewRefs order chunkEntries (file, offset) =
        .ok (chunkEntries', (file ++ tail, offset')) ∧
      chunkEntries'.length = chunkEntries.length ∧
      (∀ oldRef, oldRef ∉ order → chunkEntries'[oldRef]? = chunkEntries[oldRef]?) ∧
      ∀ oldRef ∈ order, RewrittenSeries crc32c source (file ++ tail) oldToNewRefs chunkEntries
        chunkEntries' oldRef := by
  induction order generalizing chunkEntries file offset with
  | nil =>
    exact ⟨chunkEntries, [], offset, by rw [append_nil]; rfl, rfl, fun _ _ => rfl,
      fun _ h => absurd h not_mem_nil⟩
  | cons oldRef order ih =>
    obtain ⟨hfresh, hnodup⟩ := nodup_cons.mp hnodup
    obtain ⟨hlt, hltRef⟩ := hrange oldRef (mem_cons_self ..)
    obtain ⟨newRef, hnewRef⟩ : ∃ newRef, oldToNewRefs[oldRef]? = some newRef :=
      ⟨_, getElem?_eq_getElem hltRef⟩
    obtain ⟨entries, hentries⟩ : ∃ entries, chunkEntries[oldRef]? = some entries :=
      ⟨_, getElem?_eq_getElem hlt⟩
    have hlength : framesLength chunkEntries oldRef =
        (entries.map frameLength).sum := by
      rw [framesLength, hentries]
      rfl
    rw [map_cons, sum_cons, hlength] at hroom
    have hsorted : ∀ e ∈ sortChunkEntries entries, SourceFrame crc32c source fileId e := by
      intro e he
      rw [sortChunkEntries_eq] at he
      refine hframes oldRef (mem_cons_self ..) e ?_
      rw [hentries]
      exact (sortByKey_perm entries).mem_iff.mp he
    obtain ⟨entries', tail, offset', hrewrite, hoffset', htail, hall⟩ :=
      rewriteEntries_spec newRef hsorted hoffset (by rw [sum_sortChunkEntries]; omega)
    rw [sum_sortChunkEntries] at htail
    -- the other series of the order are still as they were
    have hother : ∀ {o : Nat}, o ≠ oldRef →
        (chunkEntries.set oldRef entries')[o]? = chunkEntries[o]? := by
      intro o ho
      rw [getElem?_set_ne (Ne.symm ho)]
    have hne : ∀ o ∈ order, o ≠ oldRef := fun o ho heq => hfresh (heq ▸ ho)
    have hsum : order.map (framesLength (chunkEntries.set oldRef entries')) =
        order.map (framesLength chunkEntries) := by
      refine map_congr_left fun o ho => ?_
      rw [framesLength, framesLength, hother (hne o ho)]
    have hrange' : ∀ o ∈ order, o < (chunkEntries.set oldRef entries').length ∧
        o < oldToNewRefs.length := by
      intro o ho
      rw [length_set]
      exact hrange o (mem_cons_of_mem _ ho)
    have hframes' : ∀ o ∈ order, ∀ e ∈ (chunkEntries.set oldRef entries')[o]?.getD [],
        SourceFrame crc32c source fileId e := by
      intro o ho
      rw [hother (hne o ho)]
      exact hframes o (mem_cons_of_mem _ ho)
    obtain ⟨chunkEntries', tail', offset'', hrest, hlen, houtside, hinside⟩ :=
      ih hnodup hrange' hframes' hoffset' (by rw [hsum, length_append, htail]; omega)
    rw [append_assoc] at hrest hinside
    have hself : chunkEntries'[oldRef]? = some entries' := by
      rw [houtside oldRef hfresh, getElem?_set_self hlt]
    refine ⟨chunkEntries', tail ++ tail', offset'', ?_, by rw [hlen, length_set], ?_, ?_⟩
    · simp only [rewriteSeries, except_bind_ok, okOr_ok]
      exact ⟨newRef, hnewRef, entries, hentries, _, hrewrite, hrest⟩
    · intro o ho
      rw [mem_cons, not_or] at ho
      rw [houtside o ho.2, hother ho.1]
    intro o ho
    rcases mem_cons.mp ho with rfl | ho
    · refine ⟨newRef, entries, entries', hnewRef, hentries, hself, ?_⟩
      rw [← append_assoc]
      exact hall.imp fun _ _ h => h.append tail'
    · obtain ⟨ref, old, new, href, hold, hnew, hrewritten⟩ := hinside o ho
      rw [hother (hne o ho)] at hold
      exact ⟨ref, old, new, href, hold, hnew, hrewritten⟩

end

theorem foldlM_placeSeriesRef {entries : List (Nat × Nat)} (hnodup : (entries.map Prod.fst).Nodup)
    (hnew : ∀ entry ∈ entries, entry.2 < 2 ^ 32) {refs : List (Option UInt32)}
    (hfree : ∀ entry ∈ entries, refs[entry.1]? = some none) :
    ∃ refs', entries.foldlM placeSeriesRef refs = .ok refs' ∧ refs'.length = refs.length ∧
      (∀ oldRef, oldRef ∉ entries.map Prod.fst → refs'[oldRef]? = refs[oldRef]?) ∧
      ∀ entry ∈ entries, refs'[entry.1]? = some (some (UInt32.ofNat entry.2)) := by
  induction entries generalizing refs with
  | nil => exact ⟨refs, rfl, rfl, fun _ _ => rfl, fun _ h => absurd h List.not_mem_nil⟩
  | cons entry entries ih =>
    obtain ⟨oldRef, newRef⟩ := entry
    rw [List.map_cons, List.nodup_cons] at hnodup
    obtain ⟨hfresh, hnodup⟩ := hnodup
    have hslot := hfree _ (List.mem_cons_self ..)
    have hlt : oldRef < refs.length := (List.getElem?_eq_some_iff.mp hslot).1
    have hstep : placeSeriesRef refs (oldRef, newRef) =
        .ok (refs.set oldRef (some (ofNat newRef))) := by
      have hnewRef : newRef < 2 ^ 32 := hnew _ (List.mem_cons_self ..)
      unfold placeSeriesRef
      simp only [hslot, okOr, Option.elim_some]
      rw [except_bind_ok]
      exact ⟨none, rfl, by rw [require_pos rfl, require_pos hnewRef]; rfl⟩
    have hfree' : ∀ entry ∈ entries,
        (refs.set oldRef (some (ofNat newRef)))[entry.1]? = some none := by
      intro entry hentry
      have hne : oldRef ≠ entry.1 := by
        intro heq
        exact hfresh (List.mem_map.mpr ⟨entry, hentry, heq.symm⟩)
      rw [List.getElem?_set_ne hne]
      exact hfree entry (List.mem_cons_of_mem _ hentry)
    obtain ⟨refs', hfold, hlength, hother, hplaced⟩ :=
      ih hnodup (fun entry h => hnew entry (List.mem_cons_of_mem _ h)) hfree'
    refine ⟨refs', ?_, by rw [hlength, List.length_set], ?_, ?_⟩
    · rw [List.foldlM_cons, hstep]
      exact hfold
    · intro o ho
      rw [List.map_cons, List.mem_cons, not_or] at ho
      rw [hother o ho.2, List.getElem?_set_ne (Ne.symm ho.1)]
    · refine List.forall_mem_cons.mpr ⟨?_, hplaced⟩
      rw [hother _ hfresh, List.getElem?_set_self hlt]

def IsSeriesOrder (order : List Nat) (count : Nat) : Prop := order.Perm (List.range count)

namespace IsSeriesOrder
variable {order : List Nat} {count : Nat}

theorem length_eq (h : IsSeriesOrder order count) : order.length = count := by
  rw [List.Perm.length_eq h, length_range]

theorem nodup (h : IsSeriesOrder order count) : order.Nodup :=
  (List.Perm.nodup_iff h).mpr nodup_range

theorem mem_iff (h : IsSeriesOrder order count) {oldRef : Nat} :
    oldRef ∈ order ↔ oldRef < count := by
  rw [List.Perm.mem_iff h, mem_range]

theorem range (count : Nat) : IsSeriesOrder (range count) count := List.Perm.refl _

end IsSeriesOrder

theorem eq_of_getElem?_range {count newRef oldRef : Nat}
    (h : (List.range count)[newRef]? = some oldRef) : oldRef = newRef := by
  obtain ⟨hlt, rfl⟩ := List.getElem?_eq_some_iff.mp h
  exact List.getElem_range ..

theorem oldToNewSeriesRefs_spec {count : Nat} (h : IsSeriesOrder order count)
    (hcount : count ≤ 2 ^ 32) :
    ∃ refs, oldToNewSeriesRefs order = .ok refs ∧ refs.length = count ∧
      ∀ newRef oldRef, order[newRef]? = some oldRef →
        refs[oldRef]? = some (UInt32.ofNat newRef) := by
  have hkeys : order.zipIdx.map Prod.fst = order := List.zipIdx_map_fst ..
  have hindex : ∀ entry ∈ order.zipIdx, order[entry.2]? = some entry.1 := by
    rintro ⟨oldRef, newRef⟩ hentry
    exact List.mem_zipIdx_iff_getElem?.mp hentry
  have hnodup : (order.zipIdx.map Prod.fst).Nodup := by
    rw [hkeys]
    exact h.nodup
  have hnew : ∀ entry ∈ order.zipIdx, entry.2 < 2 ^ 32 := by
    intro entry hentry
    have hlt := (List.getElem?_eq_some_iff.mp (hindex entry hentry)).1
    rw [h.length_eq] at hlt
    omega
  have hfree : ∀ entry ∈ order.zipIdx,
      (List.replicate order.length (none : Option UInt32))[entry.1]? = some none := by
    intro entry hentry
    have hmem : entry.1 ∈ order := hkeys ▸ List.mem_map_of_mem hentry
    rw [List.getElem?_replicate_of_lt]
    rw [h.length_eq]
    exact h.mem_iff.mp hmem
  obtain ⟨slots, hfold, hlength, -, hplaced⟩ := foldlM_placeSeriesRef hnodup hnew hfree
  rw [List.length_replicate] at hlength
  -- every slot was filled, since the order reaches all of them
  have hfilled : ∀ slot ∈ slots, slot ≠ none := by
    intro slot hslot hnone
    obtain ⟨oldRef, hlt, rfl⟩ := List.mem_iff_getElem.mp hslot
    rw [hlength, h.length_eq] at hlt
    obtain ⟨newRef, hnewRef, hget⟩ := List.mem_iff_getElem.mp (h.mem_iff.mpr hlt)
    have hentry : (oldRef, newRef) ∈ order.zipIdx :=
      List.mem_zipIdx_iff_getElem?.mpr (List.getElem?_eq_some_iff.mpr ⟨hnewRef, hget⟩)
    have hsome := hplaced _ hentry
    rw [List.getElem?_eq_getElem (by omega), hnone] at hsome
    cases hsome
  refine ⟨slots.map (·.getD 0), ?_, by rw [List.length_map, hlength, h.length_eq], ?_⟩
  · rw [oldToNewSeriesRefs, hfold]
    refine except_mapM_ok fun slot hslot => ?_
    cases slot with
    | none => exact absurd rfl (hfilled none hslot)
    | some newRef => rfl
  · intro newRef oldRef hget
    have hsome := hplaced (oldRef, newRef) (List.mem_zipIdx_iff_getElem?.mpr hget)
    rw [List.getElem?_map, hsome]
    rfl

theorem foldlM_takeSlot {α : Type} (name : String) (hnodup : order.Nodup)
    {slots : List (Option α)} {item : Nat → α}
    (hslots : ∀ oldRef ∈ order, slots[oldRef]? = some (some (item oldRef))) (out : List α) :
    ∃ slots', order.foldlM (takeSlot name) (slots, out) = .ok (slots', out ++ order.map item) := by
  induction order generalizing slots out with
  | nil => exact ⟨slots, by rw [map_nil, append_nil]; rfl⟩
  | cons oldRef order ih =>
    obtain ⟨hfresh, hnodup⟩ := nodup_cons.mp hnodup
    have hstep : takeSlot name (slots, out) oldRef =
        .ok (slots.set oldRef none, out ++ [item oldRef]) := by
      unfold takeSlot
      rw [hslots oldRef (mem_cons_self ..)]
      rfl
    have hslots' : ∀ o ∈ order, (slots.set oldRef none)[o]? = some (some (item o)) := by
      intro o ho
      have hne : oldRef ≠ o := by
        rintro rfl
        exact hfresh ho
      rw [getElem?_set_ne hne]
      exact hslots o (mem_cons_of_mem _ ho)
    obtain ⟨slots', hfold⟩ := ih hnodup hslots' (out ++ [item oldRef])
    refine ⟨slots', ?_⟩
    rw [append_assoc] at hfold
    rw [foldlM_cons, hstep]
    exact hfold

theorem reorderVecByOldIndices_spec {α : Type} {items : List α}
    (h : IsSeriesOrder order items.length) (name : String) :
    ∃ ordered, reorderVecByOldIndices items order name = .ok ordered ∧
      ∀ newRef : Nat, ordered[newRef]? = order[newRef]?.bind fun oldRef => items[oldRef]? := by
  cases items with
  | nil =>
    obtain rfl : order = [] := length_eq_zero_iff.mp h.length_eq
    exact ⟨[], rfl, fun _ => rfl⟩
  | cons first rest =>
    have hslots : ∀ oldRef ∈ order, ((first :: rest).map some)[oldRef]? =
        some (some ((first :: rest)[oldRef]?.getD first)) := by
      intro oldRef hmem
      have hlt := h.mem_iff.mp hmem
      rw [getElem?_map, getElem?_eq_getElem hlt]
      rfl
    obtain ⟨slots, hfold⟩ := foldlM_takeSlot name h.nodup hslots []
    refine ⟨order.map fun oldRef => (first :: rest)[oldRef]?.getD first, ?_, ?_⟩
    · simp only [reorderVecByOldIndices, except_bind_ok, require_ok, exists_const]
      exact ⟨h.length_eq.symm, _, hfold, rfl⟩
    intro newRef
    rw [getElem?_map]
    cases hget : order[newRef]? with
    | none => rfl
    | some oldRef =>
      have hlt := h.mem_iff.mp (mem_of_getElem? hget)
      rw [Option.map_some, Option.bind_some, getElem?_eq_getElem hlt]
      rfl

theorem sortChunkEntries_of_adjacent {entries : List ChunkIndexEntry}
    (h : (entries.zip entries.tail).all fun pair => !(chunkEntryTimeOrder pair.1 pair.2).isGT) :
    sortChunkEntries entries = entries := by
  have hchain : entries.IsChain fun left right => left.timeKey ≤ right.timeKey := by
    induction entries with
    | nil => exact .nil
    | cons first rest ih =>
      cases rest with
      | nil => exact .singleton first
      | cons second rest =>
        rw [tail_cons, zip_cons_cons, all_cons, Bool.and_eq_true] at h
        refine .cons_cons ?_ (ih h.2)
        rw [← chunkEntryTimeOrder_isLE]
        have hnot := h.1
        cases hcmp : chunkEntryTimeOrder first second <;> simp_all
  rw [sortChunkEntries]
  refine mergeSort_of_pairwise (hchain.pairwise.imp fun hle => ?_)
  exact (chunkEntryTimeOrder_isLE _ _).mpr hle

section
variable {crc32c : Bytes → UInt32} {source : Bytes} {fileId : UInt8}
  {chunkEntries : List (List ChunkIndexEntry)}

/-- The entries of the series that gets a reference are those it had, in the order of their time
spans, and lead to its records under that reference. -/
structure SeriesMajor (crc32c : Bytes → UInt32) (source : Bytes)
    (chunkEntries : List (List ChunkIndexEntry)) (order : List Nat) (file : Bytes)
    (chunkEntries' : List (List ChunkIndexEntry)) : Prop where
  length_eq : chunkEntries'.length = chunkEntries.length
  rewritten : ∀ newRef oldRef, order[newRef]? = some oldRef →
    ∃ entries entries', chunkEntries[oldRef]? = some entries ∧
      chunkEntries'[oldRef]? = some entries' ∧
      List.Forall₂ (Rewritten crc32c source (UInt32.ofNat newRef) file)
        (sortChunkEntries entries) entries'

def CarryRefs (source : Bytes) (chunkEntries : List (List ChunkIndexEntry)) : Prop :=
  ∀ seriesRef entries, chunkEntries[seriesRef]? = some entries → ∀ e ∈ entries,
    setSeriesRef (e.bytes source) (UInt32.ofNat seriesRef) = e.bytes source

structure Sealable (crc32c : Bytes → UInt32) (source : Bytes) (fileId : UInt8)
    (chunkEntries : List (List ChunkIndexEntry)) : Prop where
  carry : CarryRefs source chunkEntries
  frames : ∀ entries ∈ chunkEntries, ∀ e ∈ entries, SourceFrame crc32c source fileId e
  room : (chunkEntries.flatten.map ChunkIndexEntry.frameLength).sum < 2 ^ 64

variable (hsealable : Sealable crc32c source fileId chunkEntries)

theorem framesLength_sum (order : List Nat) (h : IsSeriesOrder order chunkEntries.length) :
    (order.map (framesLength chunkEntries)).sum =
      (chunkEntries.flatten.map frameLength).sum := by
  rw [((List.Perm.map _ h).sum_nat)]
  have hrange : (range chunkEntries.length).map (framesLength chunkEntries) =
      chunkEntries.map fun entries => (entries.map frameLength).sum := by
    refine ext_getElem (by simp) fun i h₁ h₂ => ?_
    rw [length_map, length_range] at h₁
    rw [getElem_map, getElem_range, getElem_map, framesLength, getElem?_eq_getElem h₁]
    rfl
  rw [hrange, map_flatten, sum_flatten, map_map]
  rfl

theorem getElem?_of_identity (h : order.zipIdx.all (fun entry => entry.1 = entry.2))
    {newRef oldRef : Nat} (hget : order[newRef]? = some oldRef) : oldRef = newRef := by
  have hmem : (oldRef, newRef) ∈ order.zipIdx := mem_zipIdx_iff_getElem?.mpr hget
  exact of_decide_eq_true (all_eq_true.mp h _ hmem)

include hsealable

theorem seriesMajor_of_already
    (halready : chunksAreAlreadyIdentitySeriesMajorOrder chunkEntries fileId)
    (h : IsSeriesOrder order chunkEntries.length)
    (hidentity : ∀ newRef oldRef : Nat, order[newRef]? = some oldRef → oldRef = newRef) :
    SeriesMajor crc32c source chunkEntries order source chunkEntries := by
  refine ⟨rfl, fun newRef oldRef hget => ?_⟩
  obtain rfl := hidentity newRef oldRef hget
  have hlt := h.mem_iff.mp (mem_of_getElem? hget)
  have hentries := getElem?_eq_getElem hlt
  have hmem : chunkEntries[oldRef] ∈ chunkEntries := getElem_mem hlt
  have hsorted : sortChunkEntries chunkEntries[oldRef] = chunkEntries[oldRef] := by
    rw [chunksAreAlreadyIdentitySeriesMajorOrder, Bool.and_eq_true, Bool.and_eq_true] at halready
    exact sortChunkEntries_of_adjacent (all_eq_true.mp halready.1.1 _ hmem)
  refine ⟨_, _, hentries, hentries, ?_⟩
  rw [hsorted, forall₂_same]
  intro e he
  refine ⟨?_, rfl⟩
  rw [hsealable.carry oldRef _ hentries e he]
  exact (hsealable.frames _ hmem e he).frame

theorem rewriteChunksInSeriesMajorOrder_spec (h : IsSeriesOrder order chunkEntries.length)
    {refs : List UInt32} (hlength : refs.length = chunkEntries.length)
    (hrefs : ∀ newRef oldRef, order[newRef]? = some oldRef →
      refs[oldRef]? = some (ofNat newRef)) :
    ∃ file chunkEntries',
      rewriteChunksInSeriesMajorOrder crc32c source fileId chunkEntries order refs =
        .ok (file, chunkEntries') ∧
      SeriesMajor crc32c source chunkEntries order file chunkEntries' := by
  unfold rewriteChunksInSeriesMajorOrder
  rw [require_pos ⟨hlength.symm, h.length_eq.symm⟩]
  by_cases halready : chunksAreAlreadySeriesMajorOrder chunkEntries order refs fileId
  · rw [if_pos halready]
    rw [chunksAreAlreadySeriesMajorOrder, Bool.and_eq_true, Bool.and_eq_true] at halready
    exact ⟨source, chunkEntries, rfl, seriesMajor_of_already hsealable halready.2 h
      fun _ _ hget => getElem?_of_identity halready.1.1 hget⟩
  rw [if_neg halready]
  have hrange : ∀ oldRef ∈ order, oldRef < chunkEntries.length ∧ oldRef < refs.length := by
    intro oldRef hmem
    rw [hlength]
    exact ⟨h.mem_iff.mp hmem, h.mem_iff.mp hmem⟩
  have hsource : ∀ oldRef ∈ order, ∀ e ∈ chunkEntries[oldRef]?.getD [],
      SourceFrame crc32c source fileId e := by
    intro oldRef hmem e he
    have hlt := h.mem_iff.mp hmem
    rw [getElem?_eq_getElem hlt] at he
    exact hsealable.frames _ (getElem_mem hlt) e he
  have hzero : (0 : UInt64).toNat = ([] : Bytes).length := rfl
  obtain ⟨chunkEntries', file, offset, hrewrite, hlen, -, hinside⟩ :=
    rewriteSeries_spec h.nodup hrange hsource hzero
      (by rw [framesLength_sum order h, length_nil, Nat.zero_add]; exact hsealable.room)
  refine ⟨file, chunkEntries', ?_, hlen, fun newRef oldRef hget => ?_⟩
  · exact except_bind_ok.mpr ⟨(), rfl, except_bind_ok.mpr ⟨_, hrewrite, rfl⟩⟩
  obtain ⟨ref, entries, entries', href, hentries, hentries', hall⟩ :=
    hinside oldRef (mem_of_getElem? hget)
  obtain rfl : ofNat newRef = ref :=
    Option.some.inj ((hrefs newRef oldRef hget).symm.trans href)
  exact ⟨entries, entries', hentries, hentries', hall⟩

theorem rewriteChunksInIdentitySeriesOrder_spec (hcount : chunkEntries.length ≤ 2 ^ 32) :
    ∃ file chunkEntries',
      rewriteChunksInIdentitySeriesOrder crc32c source fileId chunkEntries =
        .ok (file, chunkEntries') ∧
      SeriesMajor crc32c source chunkEntries (range chunkEntries.length) file
        chunkEntries' := by
  have h := IsSeriesOrder.range chunkEntries.length
  unfold rewriteChunksInIdentitySeriesOrder
  split
  · rename_i halready
    exact ⟨source, chunkEntries, rfl, seriesMajor_of_already hsealable halready h
      fun _ _ => eq_of_getElem?_range⟩
  obtain ⟨refs, hrefs, hlength, hplaced⟩ := oldToNewSeriesRefs_spec h hcount
  dsimp only
  rw [hrefs]
  exact rewriteChunksInSeriesMajorOrder_spec hsealable h hlength hplaced

end

end Chronoxide
