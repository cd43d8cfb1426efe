import Chronoxide.Collections.KeepLast
import Chronoxide.Segment.Recording

/-! Which sample of a series counts if it was recorded in several chunks of one segment. Sealing puts
the chunks of a series in the order of their time spans, and only chunks of one span stay in the
order in which they were recorded. -/

namespace Chronoxide
open Codec StableSort Fallible KeepLast List

/-- The samples that a query without projection reads; `asF64` is `as f64` on integers. -/
def ChunkSamples.floats (asF64 : Int64 → F64) : ChunkSamples → List (UInt64 × F64)
  | .float samples => samples
  | .int64 samples => samples.map fun sample => (sample.1, asF64 sample.2)
  | _ => []

namespace SealedChunks
variable (crc32c : Bytes → UInt32) (asF64 : Int64 → F64)

def entriesOf (self : SealedChunks) (series : SeriesRef) : List ChunkIndexEntry :=
  ((self.seriesMap.idxOf? series).bind fun oldRef =>
    self.oldToNewRefs[oldRef]?.bind fun newRef => self.chunkEntries[newRef.toNat]?).getD []

def records (self : SealedChunks) (series : SeriesRef) : Except IoError (List ChunkRecord) :=
  (self.entriesOf series).mapM fun entry => decodeChunkRecord crc32c (entry.bytes self.payload)

/-- The samples of a series in the order of its chunks, sorted, the last of every timestamp. -/
def readBack (segments : List SealedChunks) (series : SeriesRef) :
    Except IoError (List (UInt64 × F64)) := do
  let records ← segments.mapM fun segment => segment.records crc32c series
  return keepLast (·.1) (sortByKey (·.1) (records.flatten.flatMap (·.samples.floats asF64)))

end SealedChunks

def timeSpan (timestamps : List UInt64) : ℕ ×ₗ ℕ :=
  toLex ((timestamps.map (·.toNat)).min?.getD 0, (timestamps.map (·.toNat)).max?.getD 0)

theorem timeSpan_perm {ts ts' : List UInt64} (h : ts.Perm ts') : timeSpan ts = timeSpan ts' := by
  have hmap := h.map (·.toNat)
  have hmin : (ts.map (·.toNat)).min? = (ts'.map (·.toNat)).min? := by
    ext a
    rw [min?_eq_some_iff, min?_eq_some_iff, hmap.mem_iff]
    exact and_congr_right fun _ => forall_congr' fun b => by rw [hmap.mem_iff]
  have hmax : (ts.map (·.toNat)).max? = (ts'.map (·.toNat)).max? := by
    ext a
    rw [max?_eq_some_iff, max?_eq_some_iff, hmap.mem_iff]
    exact and_congr_right fun _ => forall_congr' fun b => by rw [hmap.mem_iff]
  rw [timeSpan, timeSpan, hmin, hmax]

theorem timeSpan_sorted {ts : List UInt64} (h : ts.Pairwise (· ≤ ·)) :
    timeSpan ts = toLex ((ts.headD 0).toNat, (ts.getLastD 0).toNat) := by
  have hmin : (ts.map (·.toNat)).min?.getD 0 = (ts.headD 0).toNat := by
    rw [min?_eq_head?]
    · cases ts <;> rfl
    · refine pairwise_map.mpr (h.imp fun hle => ?_)
      exact Nat.min_eq_left hle
  have hmax : (ts.map (·.toNat)).max?.getD 0 = (ts.getLastD 0).toNat := by
    rcases eq_nil_or_concat ts with rfl | ⟨front, last, rfl⟩
    · rfl
    rw [concat_eq_append] at h ⊢
    have hlast : ((front ++ [last]).map (·.toNat)).max? = some last.toNat := by
      rw [max?_eq_some_iff]
      refine ⟨mem_map_of_mem (by simp), fun b hb => ?_⟩
      obtain ⟨t, ht, rfl⟩ := mem_map.mp hb
      rcases mem_append.mp ht with ht | ht
      · exact (pairwise_append.mp h).2.2 t ht last (by simp)
      · rw [mem_singleton.mp ht]
    rw [hlast, getLastD_eq_getLast?]
    simp
  rw [timeSpan, hmin, hmax]

theorem mapM_of_forall₂ {α β γ ε : Type} {f : β → Except ε γ} {g : α → γ} {as : List α}
    {bs : List β} (h : Forall₂ (fun a b => f b = .ok (g a)) as bs) :
    bs.mapM f = .ok (as.map g) := by
  induction h with
  | nil => rfl
  | cons hb _ ih =>
    rw [mapM_cons, hb, ih]
    rfl

section
variable {crc32c : Bytes → UInt32} {window : UInt64 × UInt64}
  {log : List (SeriesRef × ChunkSamples)} {active : ActiveSegment}

theorem RecordedChunk.ordered {file : Bytes} {fileId : UInt8} {localRef : UInt32}
    {samples : ChunkSamples} {e : ChunkIndexEntry}
    (h : RecordedChunk crc32c file fileId localRef samples e) :
    timeSpan samples.timestamps = toLex (e.minTimeMs.toNat, e.maxTimeMs.toNat) := by
  obtain ⟨encoding, body, lane, hstored, -⟩ := h.stored
  rw [h.minTimeMs, h.maxTimeMs]
  exact timeSpan_sorted hstored.range.ordered

theorem RecordedChunk.sortChunkEntries {file : Bytes} {fileId : UInt8} {localRef : UInt32}
    {chunks : List ChunkSamples} {entries : List ChunkIndexEntry}
    (h : Forall₂ (RecordedChunk crc32c file fileId localRef) chunks entries)
    (hstart : entries.Pairwise fun a b => a.start < b.start) :
    Forall₂ (RecordedChunk crc32c file fileId localRef)
      (sortByKey (fun samples => timeSpan samples.timestamps) chunks)
      (Chronoxide.sortChunkEntries entries) := by
  rw [sortChunkEntries_eq]
  refine sortByKey_forall₂ h hstart ?_ ?_
  · intro a e a' e' he he' hlt
    rw [he.ordered, he'.ordered, Prod.Lex.toLex_lt_toLex] at hlt
    rw [ChunkIndexEntry.timeKey, ChunkIndexEntry.timeKey, he.source.fileId_eq, he'.source.fileId_eq,
      Prod.Lex.toLex_lt_toLex, Prod.Lex.toLex_lt_toLex, Prod.Lex.toLex_lt_toLex]
    rcases hlt with hlt | ⟨heq, hlt⟩
    · exact .inr ⟨rfl, .inl hlt⟩
    · exact .inr ⟨rfl, .inr ⟨heq, .inl hlt⟩⟩
  intro a e a' e' he he' hbefore heq
  rw [he.ordered, he'.ordered, toLex_inj, Prod.mk.injEq] at heq
  rw [ChunkIndexEntry.timeKey, ChunkIndexEntry.timeKey, he.source.fileId_eq,
    he'.source.fileId_eq, heq.1, heq.2]
  simp only [Prod.Lex.toLex_lt_toLex, lt_irrefl, false_or, true_and]
  exact hbefore

section
variable (h : active.Holds crc32c window log)
include h

theorem ActiveSegment.Holds.recorded
    {entries : List ChunkIndexEntry} {localRef : Nat}
    (hentries : active.chunkEntries[localRef]? = some entries) {e : ChunkIndexEntry}
    (he : e ∈ entries) : ∃ samples, RecordedChunk crc32c active.chunks.file active.chunks.fileId
      (UInt32.ofNat localRef) samples e := by
  have hlt := (List.getElem?_eq_some_iff.mp hentries).1
  rw [h.count] at hlt
  obtain ⟨entries', hentries', hall, -⟩ := h.entries localRef _ (List.getElem?_eq_getElem hlt)
  obtain rfl : entries = entries' := Option.some.inj (hentries.symm.trans hentries')
  obtain ⟨i, hi, rfl⟩ := List.mem_iff_getElem.mp he
  have hi' := hall.length_eq ▸ hi
  exact ⟨_, hall.get hi' hi⟩

theorem ActiveSegment.Holds.records {order : List Nat}
    (horder : IsSeriesOrder order active.seriesMap.length) {file : Bytes}
    {chunkEntries final : List (List ChunkIndexEntry)} {refs : List UInt32}
    (hmajor : SeriesMajor crc32c active.chunks.file active.chunkEntries order file chunkEntries)
    (hrefs : ∀ newRef oldRef, order[newRef]? = some oldRef →
      refs[oldRef]? = some (UInt32.ofNat newRef))
    (hfinal : ∀ newRef oldRef : Nat, order[newRef]? = some oldRef →
      final[newRef]? = chunkEntries[oldRef]?) (series : SeriesRef) :
    ∃ newRef, (SealedChunks.mk active.seriesMap refs file final).records crc32c series =
      .ok ((sortByKey (fun samples => timeSpan samples.timestamps) (chunksOf series log)).map
        (ChunkRecord.ofSamples newRef)) := by
  cases hidx : active.seriesMap.idxOf? series with
  | none =>
    have hempty : chunksOf series log = [] := by
      rw [chunksOf, filter_eq_nil_iff.mpr, map_nil]
      intro chunk hchunk heq
      exact idxOf?_eq_none_iff.mp hidx (of_decide_eq_true heq ▸ h.known chunk hchunk)
    refine ⟨0, ?_⟩
    rw [hempty, SealedChunks.records, SealedChunks.entriesOf, hidx, sortByKey_nil]
    rfl
  | some oldRef =>
    obtain ⟨hlt, hget, -⟩ := idxOf?_eq_some_iff.mp hidx
    obtain ⟨newRef, hnewLt, hnewGet⟩ := mem_iff_getElem.mp (horder.mem_iff.mpr hlt)
    have hnew : order[newRef]? = some oldRef := List.getElem?_eq_some_iff.mpr ⟨hnewLt, hnewGet⟩
    have hnewNat : (UInt32.ofNat newRef).toNat = newRef := by
      rw [horder.length_eq] at hnewLt
      exact UInt32.toNat_ofNat_of_lt' (Nat.lt_of_lt_of_le hnewLt h.count_le)
    obtain ⟨entries, entries', hentries, hentries', hrewritten⟩ := hmajor.rewritten newRef oldRef hnew
    obtain ⟨own, hown, hall, hstart⟩ :=
      h.entries oldRef series (List.getElem?_eq_some_iff.mpr ⟨hlt, hget⟩)
    obtain rfl : entries = own := Option.some.inj (hentries.symm.trans hown)
    have hentriesOf : (SealedChunks.mk active.seriesMap refs file final).entriesOf series =
        entries' := by
      rw [SealedChunks.entriesOf, hidx]
      change ((refs[oldRef]?).bind fun newRef => final[newRef.toNat]?).getD [] = _
      rw [hrefs newRef oldRef hnew, Option.bind_some, hnewNat, hfinal newRef oldRef hnew, hentries']
      rfl
    refine ⟨UInt32.ofNat newRef, ?_⟩
    rw [SealedChunks.records, hentriesOf]
    refine mapM_of_forall₂ ?_
    have hsorted := RecordedChunk.sortChunkEntries hall hstart
    refine forall₂_iff_get.mpr ⟨hsorted.length_eq.trans hrewritten.length_eq, fun i hi hi' => ?_⟩
    have hmiddle := hsorted.length_eq ▸ hi
    have hchunk := hsorted.get hi hmiddle
    have hframe := hrewritten.get hmiddle hi'
    rw [hframe.frame.bytes_eq]
    exact hchunk.decode _

theorem sealChunks_spec {order : Option (List Nat)}
    (horder : ∀ o, order = some o → IsSeriesOrder o active.seriesMap.length) :
    ∃ chunks, sealChunks crc32c active order = .ok chunks ∧ ∀ series, ∃ newRef,
      chunks.records crc32c series =
        .ok ((sortByKey (fun samples => timeSpan samples.timestamps) (chunksOf series log)).map
          (ChunkRecord.ofSamples newRef)) := by
  have hsealable : Sealable crc32c active.chunks.file active.chunks.fileId active.chunkEntries := by
    refine ⟨fun localRef entries hentries e he => ?_, fun entries hmem e he => ?_, ?_⟩
    · obtain ⟨samples, hchunk⟩ := h.recorded hentries he
      exact hchunk.carries
    · obtain ⟨localRef, hlt, rfl⟩ := mem_iff_getElem.mp hmem
      obtain ⟨samples, hchunk⟩ := h.recorded (getElem?_eq_getElem hlt) he
      exact hchunk.source
    · rw [h.filled, ← active.chunks.offset_eq]
      exact active.chunks.offset.toNat_lt
  unfold sealChunks
  rw [require_pos h.count.symm]
  cases order with
  | some order =>
    have hperm := horder order rfl
    have hperm' : IsSeriesOrder order active.chunkEntries.length := h.count ▸ hperm
    obtain ⟨refs, hrefs, hlength, hplaced⟩ := oldToNewSeriesRefs_spec hperm h.count_le
    obtain ⟨file, chunkEntries, hrewrite, hmajor⟩ := rewriteChunksInSeriesMajorOrder_spec hsealable
      hperm' (hlength.trans h.count.symm) hplaced
    have hperm'' : IsSeriesOrder order chunkEntries.length := hmajor.length_eq ▸ hperm'
    obtain ⟨final, hreorder, hfinal⟩ := reorderVecByOldIndices_spec hperm'' "chunk entries"
    refine ⟨⟨active.seriesMap, refs, file, final⟩, ?_, h.records hperm hmajor hplaced ?_⟩
    · refine except_bind_ok.mpr ⟨(), rfl, except_bind_ok.mpr ⟨refs, hrefs, ?_⟩⟩
      refine except_bind_ok.mpr ⟨(file, chunkEntries), hrewrite, ?_⟩
      exact except_bind_ok.mpr ⟨final, hreorder, rfl⟩
    · intro newRef oldRef hget
      rw [hfinal, hget]
      rfl
  | none =>
    obtain ⟨file, chunkEntries, hrewrite, hmajor⟩ :=
      rewriteChunksInIdentitySeriesOrder_spec hsealable (h.count ▸ h.count_le)
    rw [h.count] at hmajor
    refine ⟨⟨active.seriesMap, (range active.seriesMap.length).map UInt32.ofNat, file,
      chunkEntries⟩, ?_, h.records (IsSeriesOrder.range _) hmajor ?_ ?_⟩
    · refine except_bind_ok.mpr ⟨(), rfl, ?_⟩
      exact except_bind_ok.mpr ⟨(file, chunkEntries), hrewrite, rfl⟩
    · intro newRef oldRef hget
      obtain rfl := eq_of_getElem?_range hget
      rw [getElem?_map, hget]
      rfl
    · intro newRef oldRef hget
      rw [eq_of_getElem?_range hget]

end

end

namespace RecordCall

def argument : RecordCall → ChunkSamples
  | .samples _ l _ | .samplesOrdered _ l _ => .float l
  | .samplesI64 _ l _ | .i64SamplesOrdered _ l => .int64 l
  | .histogramSamplesOrdered _ l => .histogram l
  | .exponentialHistogramSamplesOrdered _ l => .exponentialHistogram l
  | .summarySamplesOrdered _ l => .summary l

variable (call : RecordCall)

def span : ℕ ×ₗ ℕ := timeSpan call.argument.timestamps

variable (asF64 : Int64 → F64) (t : UInt64)

def floatAt (call : RecordCall) : Option (UInt64 × F64) :=
  last? (·.1) t (call.argument.floats asF64)

theorem span_chunk : timeSpan call.chunk.2.timestamps = call.span := by
  cases call with
  | samples series l raw => exact timeSpan_perm ((sortByKey_perm l).map _)
  | samplesI64 series l raw => exact timeSpan_perm ((sortByKey_perm l).map _)
  | _ => rfl

theorem floatAt_chunk : last? (·.1) t (call.chunk.2.floats asF64) = call.floatAt asF64 t := by
  have hsort : ∀ l : List (UInt64 × F64),
      last? (·.1) t (sortByKey (·.1) l) = last? (·.1) t l := by
    intro l
    refine last?_mergeSort key_le_trans key_le_total ?_
    refine pairwise_of_forall_mem_list fun a ha b hb => decide_eq_true (le_of_eq ?_)
    show a.1 = b.1
    rw [of_decide_eq_true (mem_filter.mp ha).2, of_decide_eq_true (mem_filter.mp hb).2]
  cases call with
  | samples series l raw => exact hsort l
  | samplesI64 series l raw =>
    have hmap : sortByKey (·.1) (l.map fun s => (s.1, asF64 s.2)) = _ :=
      sortByKey_map (fun _ => rfl) l
    exact (congrArg _ hmap.symm).trans (hsort _)
  | _ => rfl

def succeeded (series : SeriesRef) (events : List (RecordCall × Except IoError Unit)) :
    List RecordCall :=
  (events.filter fun event => event.2 = .ok () ∧ event.1.chunk.1 = series).map (·.1)

def latest (calls : List RecordCall) : Option (UInt64 × F64) :=
  calls.reverse.findSome? (floatAt asF64 t)

theorem chunksOf_accepted (series : SeriesRef) (events : List (RecordCall × Except IoError Unit)) :
    chunksOf series (SegmentWriter.accepted events) =
      ((succeeded series events).filter (·.chunk.2.timestamps ≠ [])).map (·.chunk.2) := by
  induction events with
  | nil => rfl
  | cons event events ih =>
    obtain ⟨call, answer⟩ := event
    have hsplit : chunksOf series (SegmentWriter.accepted ((call, answer) :: events)) =
        chunksOf series (if answer = .ok () then call.chunks else []) ++
          chunksOf series (SegmentWriter.accepted events) := by
      simp [chunksOf, SegmentWriter.accepted]
    have hfilter : succeeded series ((call, answer) :: events) =
        (if answer = .ok () ∧ call.chunk.1 = series then [call] else []) ++
          succeeded series events := by
      rw [succeeded, filter_cons]
      split <;> simp_all [succeeded]
    rw [hsplit, ih, hfilter, filter_append, map_append]
    congr 1
    by_cases hanswer : answer = .ok () <;> by_cases hseries : call.chunk.1 = series <;>
      by_cases hempty : call.chunk.2.timestamps = [] <;>
      simp [chunksOf, RecordCall.chunks, hanswer, hseries, hempty]

theorem latest_eq (calls : List RecordCall) :
    last? (·.1) t (calls.flatMap (·.chunk.2.floats asF64)) = latest asF64 t calls := by
  induction calls with
  | nil => rfl
  | cons call calls ih =>
    rw [flatMap_cons, last?_append, ih, floatAt_chunk, latest, latest, reverse_cons,
      findSome?_append]
    simp

end RecordCall

namespace SegmentWriter
variable {crc32c : Bytes → UInt32} {seriesOrder : ActiveSegment → Option (List Nat)}

theorem flush_readBack (asF64 : Int64 → F64)
    (horder : ∀ active o, seriesOrder active = some o → IsSeriesOrder o active.seriesMap.length)
    {durationMs : Nat} {window : UInt64 × UInt64} {segments : List SealedChunks}
    {log : List (SeriesRef × ChunkSamples)} {w : SegmentWriter}
    (h : w.Writing crc32c durationMs window segments log) :
    ((flush crc32c seriesOrder).exec w).1 = .ok () ∧
      ∃ new, ((flush crc32c seriesOrder).exec w).2.segments = segments ++ new ∧
        ∀ series, ∃ samples, SealedChunks.readBack crc32c asF64 new series = .ok samples ∧
          ∀ t, last? (·.1) t samples = last? (·.1) t
            ((sortByKey (fun samples => timeSpan samples.timestamps) (chunksOf series log)).flatMap
              (ChunkSamples.floats asF64)) := by
  have hkeep : ∀ samples : List (UInt64 × F64), ∀ t,
      last? (·.1) t (keepLast (·.1) (sortByKey (·.1) samples)) = last? (·.1) t samples :=
    fun samples => (keepLast_mergeSort_key samples).2
  obtain ⟨duration, lane, active, sealed⟩ := w
  cases active with
  | none =>
    obtain rfl := h.idle rfl
    refine ⟨rfl, [], ?_, fun series => ⟨_, rfl, fun t => ?_⟩⟩
    · rw [append_nil]
      exact h.segments_eq
    · rw [hkeep]
      simp [chunksOf]
  | some active =>
    obtain ⟨chunks, hseal, hrecords⟩ := sealChunks_spec (h.holds active rfl) (horder active)
    have hexec : (flush crc32c seriesOrder).exec ⟨duration, lane, some active, sealed⟩ =
        (.ok (), ⟨duration, lane, none, sealed ++ [chunks]⟩) := by
      change (do
        let chunks ← Program.lift (sealChunks crc32c active (seriesOrder active))
        modify fun self => { self with segments := self.segments ++ [chunks] } :
          Program SegmentWriter IoError Unit).exec ⟨duration, lane, none, sealed⟩ = _
      rw [hseal]
      rfl
    rw [hexec]
    refine ⟨rfl, [chunks], congrArg (· ++ [chunks]) h.segments_eq, fun series => ?_⟩
    obtain ⟨newRef, hread⟩ := hrecords series
    generalize hrecord : map _ _ = records at hread
    have hone : [chunks].mapM (fun segment => segment.records crc32c series) = .ok [records] := by
      rw [mapM_cons, hread]
      rfl
    refine ⟨_, by rw [SealedChunks.readBack, hone]; rfl, fun t => ?_⟩
    rw [hkeep, flatten_singleton, ← hrecord, flatMap_map]
    rfl

/-- The payload of the segment can always be rewritten. What is read back of a series is then, for
every timestamp, what the last call passed for it in the order of their time spans; calls of one span
count in the order in which they were made. -/
theorem sealed_series_by_time_span (asF64 : Int64 → F64)
    (horder : ∀ active o, seriesOrder active = some o → IsSeriesOrder o active.seriesMap.length)
    {w : SegmentWriter} (hactive : w.active = none) {window : UInt64 × UInt64}
    {calls : List RecordCall} (h : ∀ call ∈ calls, call.InWindow w.segmentDurationMs window) :
    let w' := Machine.run (step crc32c seriesOrder) w calls
    let events := Machine.events (step crc32c seriesOrder) w calls
    ((flush crc32c seriesOrder).exec w').1 = .ok () ∧
      ∃ new, ((flush crc32c seriesOrder).exec w').2.segments = w.segments ++ new ∧
        ∀ series, ∃ samples, SealedChunks.readBack crc32c asF64 new series = .ok samples ∧
          ∀ t, last? (·.1) t samples = RecordCall.latest asF64 t
            (sortByKey RecordCall.span (RecordCall.succeeded series events)) := by
  intro w' events
  have hwriting : Writing crc32c w.segmentDurationMs window w.segments (accepted events) w' :=
    (writing_start hactive).run h
  obtain ⟨hflush, new, hsegments, hread⟩ := flush_readBack asF64 horder hwriting
  refine ⟨hflush, new, hsegments, fun series => ?_⟩
  obtain ⟨samples, hsamples, hlast⟩ := hread series
  refine ⟨samples, hsamples, fun t => ?_⟩
  have hsort : ∀ calls : List RecordCall,
      sortByKey (fun samples => timeSpan samples.timestamps) (calls.map (·.chunk.2)) =
        (sortByKey RecordCall.span calls).map (·.chunk.2) :=
    sortByKey_map RecordCall.span_chunk
  rw [hlast, RecordCall.chunksOf_accepted, hsort, sortByKey_filter, flatMap_map,
    ← RecordCall.latest_eq]
  congr 1
  -- calls without samples contribute nothing
  generalize sortByKey RecordCall.span _ = sorted
  induction sorted with
  | nil => rfl
  | cons call sorted ih =>
    rw [filter_cons, flatMap_cons, ← ih]
    split
    · rw [flatMap_cons]
    rename_i hempty
    have hfloats : call.chunk.2.floats asF64 = [] := by
      have hnil : call.chunk.2.timestamps = [] := by simpa using hempty
      cases hchunk : call.chunk.2 with
      | float l =>
        rw [hchunk] at hnil
        exact map_eq_nil_iff.mp hnil
      | int64 l =>
        rw [hchunk] at hnil
        exact map_eq_nil_iff.mpr (map_eq_nil_iff.mp hnil)
      | _ => rfl
    rw [hfloats, nil_append]

def firstCall : List (UInt64 × F64) := [(5, F64.zero), (20, F64.zero)]
def secondCall : List (UInt64 × F64) := [(1, F64.one), (5, F64.one)]
def overlappingCalls : List RecordCall :=
  [.samples ⟨0⟩ firstCall false, .samples ⟨0⟩ secondCall false]

def idleWriter : SegmentWriter := ⟨100, .inOrder, none, []⟩

theorem overlappingCalls_inWindow :
    ∀ call ∈ overlappingCalls, call.InWindow idleWriter.segmentDurationMs (0, 100) := by
  have hfirst : ∀ t ∈ firstCall.map (·.1), segmentWindow t 100 = (0, 100) :=
    forall_mem_cons.mpr ⟨by decide, forall_mem_singleton.mpr (by decide)⟩
  have hsecond : ∀ t ∈ secondCall.map (·.1), segmentWindow t 100 = (0, 100) :=
    forall_mem_cons.mpr ⟨by decide, forall_mem_singleton.mpr (by decide)⟩
  simp only [overlappingCalls, forall_mem_cons]
  refine ⟨fun t ht => hfirst t ?_, fun t ht => hsecond t ?_, fun _ h => by cases h⟩
  · exact ((sortByKey_perm firstCall).map _).mem_iff.mp ht
  · exact ((sortByKey_perm secondCall).map _).mem_iff.mp ht

theorem sealed_series_by_time_span_overlapping :
    ((flush (fun _ => 0) fun _ => none).exec
        (Machine.run (step (fun _ => 0) fun _ => none) idleWriter overlappingCalls)).1 = .ok () ∧
      ∃ new samples, SealedChunks.readBack (fun _ => 0) (fun _ => F64.zero) new ⟨0⟩ = .ok samples ∧
        ∀ t, last? (·.1) t samples = RecordCall.latest (fun _ => F64.zero) t
          (sortByKey RecordCall.span (RecordCall.succeeded ⟨0⟩
            (Machine.events (step (fun _ => 0) fun _ => none) idleWriter overlappingCalls))) := by
  have horder : ∀ (active : ActiveSegment) (o : List Nat), none = some o →
      IsSeriesOrder o active.seriesMap.length := fun _ _ h => nomatch h
  obtain ⟨hflush, new, -, hread⟩ :=
    @sealed_series_by_time_span (fun _ => 0) (fun _ => none) (fun _ => F64.zero) horder idleWriter rfl
      (0, 100) overlappingCalls overlappingCalls_inWindow
  obtain ⟨samples, hsamples, hlast⟩ := hread ⟨0⟩
  exact ⟨hflush, new, samples, hsamples, hlast⟩

theorem step_sorted (w : SegmentWriter) (series : SeriesRef) {l : List (UInt64 × F64)} (raw : Bool)
    (hne : l ≠ []) (hsorted : l.Pairwise fun a b => a.1 ≤ b.1) :
    step crc32c seriesOrder w (.samples series l raw) =
      step crc32c seriesOrder w (.samplesOrdered series l raw) := by
  have hsort : sortByKey (·.1) l = l := sortByKey_of_sorted hsorted
  rw [step, step, record, record, recordFloatSamples, if_neg hne, hsort]

theorem firstCall_sorted : firstCall.Pairwise fun a b => a.1 ≤ b.1 := by decide
theorem secondCall_sorted : secondCall.Pairwise fun a b => a.1 ≤ b.1 := by decide

theorem overlappingCalls_events :
    Machine.events (step (fun _ => 0) fun _ => none) idleWriter overlappingCalls =
      overlappingCalls.map fun call => (call, .ok ()) := by
  have hfirst : ∀ w, step (fun _ => 0) (fun _ => none) w (.samples ⟨0⟩ firstCall false) = _ :=
    fun w => step_sorted w ⟨0⟩ false (by decide) firstCall_sorted
  have hsecond : ∀ w, step (fun _ => 0) (fun _ => none) w (.samples ⟨0⟩ secondCall false) = _ :=
    fun w => step_sorted w ⟨0⟩ false (by decide) secondCall_sorted
  simp only [overlappingCalls, Machine.events, hfirst, hsecond, map_cons, map_nil]
  rfl

/-- Both calls succeed, but what is read back for timestamp 5 is what the first one passed. -/
theorem recording_order_not_kept :
    Machine.events (step (fun _ => 0) fun _ => none) idleWriter overlappingCalls =
        overlappingCalls.map (fun call => (call, .ok ())) ∧
      RecordCall.latest (fun _ => F64.zero) 5 overlappingCalls = some (5, F64.one) ∧
      ∃ new samples, ((flush (fun _ => 0) fun _ => none).exec
          (Machine.run (step (fun _ => 0) fun _ => none) idleWriter overlappingCalls)).2.segments =
            new ∧
        SealedChunks.readBack (fun _ => 0) (fun _ => F64.zero) new ⟨0⟩ = .ok samples ∧
        last? (·.1) 5 samples = some (5, F64.zero) := by
  refine ⟨overlappingCalls_events, by decide, ?_⟩
  have hwriting : Writing (fun _ => 0) 100 (0, 100) [] _
      (Machine.run (step (fun _ => 0) fun _ => none) idleWriter overlappingCalls) :=
    (writing_start rfl).run overlappingCalls_inWindow
  have horder : ∀ (active : ActiveSegment) (o : List Nat), none = some o →
      IsSeriesOrder o active.seriesMap.length := fun _ _ h => nomatch h
  obtain ⟨-, new, hsegments, hread⟩ := flush_readBack (fun _ => F64.zero) horder hwriting
  obtain ⟨samples, hsamples, hlast⟩ := hread ⟨0⟩
  refine ⟨new, samples, hsegments, hsamples, ?_⟩
  have hchunk : ∀ {l : List (UInt64 × F64)}, l ≠ [] → (l.Pairwise fun a b => a.1 ≤ b.1) →
      (RecordCall.samples ⟨0⟩ l false).chunks = [(⟨0⟩, .float l)] := by
    intro l hne hsorted
    have hsort : sortByKey (·.1) l = l := sortByKey_of_sorted hsorted
    rw [RecordCall.chunks, RecordCall.chunk, hsort, if_neg (by simpa [ChunkSamples.timestamps])]
  have hchunks : chunksOf ⟨0⟩ (accepted (overlappingCalls.map fun call => (call, .ok ()))) =
      [.float firstCall, .float secondCall] := by
    change chunksOf ⟨0⟩ ((RecordCall.samples ⟨0⟩ firstCall false).chunks ++
      ((RecordCall.samples ⟨0⟩ secondCall false).chunks ++ [])) = _
    rw [hchunk (by decide) firstCall_sorted, hchunk (by decide) secondCall_sorted]
    rfl
  rw [hlast, overlappingCalls_events, nil_append, hchunks, sortByKey_cons, sortByKey_cons,
    sortByKey_nil]
  decide

end SegmentWriter

end Chronoxide
