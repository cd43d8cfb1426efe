import Chronoxide.Chunk.Writer
import Mathlib.Data.List.Forall2

/-! Whole files: any sequence of appends is read back, and any record that is read could have been
appended. -/

namespace Chronoxide
open Codec AppendCall List

def runAppends (crc32c : Bytes → UInt32) :
    List AppendCall → ChunkWriter → Except IoError (List ChunkIndexEntry × ChunkWriter)
  | [], w => .ok ([], w)
  | call :: calls, w => do
    let (entry, w) ← call.run crc32c w
    let (entries, w) ← runAppends crc32c calls w
    return (entry :: entries, w)

namespace ChunkIndexEntry

variable (e : ChunkIndexEntry)

def start : Nat := e.offset.toNat
def stop : Nat := e.offset.toNat + e.length.toNat

def bytes (file : Bytes) : Bytes := slice file e.start e.stop

end ChunkIndexEntry

/-- The ranges fill the file from `start` to `stop` in order, each behind its frame header. -/
def Consecutive : Nat → List ChunkIndexEntry → Nat → Prop
  | start, [], stop => start = stop
  | start, e :: entries, stop =>
    e.start = start + frameHeaderLen ∧ Consecutive e.stop entries stop

theorem Consecutive.pairwise {entries : List ChunkIndexEntry} {start stop : Nat}
    (h : Consecutive start entries stop) :
    (∀ e ∈ entries, start ≤ e.start) ∧ entries.Pairwise (fun a b => a.stop ≤ b.start) := by
  induction entries generalizing start with
  | nil => exact ⟨by simp, .nil⟩
  | cons e entries ih =>
    obtain ⟨hstart, hrest⟩ := h
    obtain ⟨hle, hpairwise⟩ := ih hrest
    have hself : e.start ≤ e.stop := Nat.le_add_right ..
    refine ⟨forall_mem_cons.mpr ⟨by omega, fun e' he' => ?_⟩,
      pairwise_cons.mpr ⟨hle, hpairwise⟩⟩
    have := hle e' he'
    omega

section Step
variable {crc32c : Bytes → UInt32} {w w' : ChunkWriter} {chunk : DecodedChunkPayload}
  {lane : Bytes} {e : ChunkIndexEntry}

section
variable (h : w.Wrote crc32c chunk lane e w')
include h

theorem ChunkWriter.Wrote.start_eq : e.start = w.file.length + frameHeaderLen := by
  have hroom := h.room.2
  rw [h.entry]
  exact UInt64.toNat_ofNat_of_lt' (by simp only [UInt64.size]; omega)

theorem ChunkWriter.Wrote.stop_eq :
    e.stop = w.file.length + frameHeaderLen + (encodeChunkRecord crc32c chunk lane).length := by
  have hlen : e.length.toNat = (encodeChunkRecord crc32c chunk lane).length := by
    have hroom := h.room.1
    rw [encodeChunkRecord_length] at hroom ⊢
    rw [h.entry]
    exact UInt32.toNat_ofNat_of_lt' (by simp only [UInt32.size]; omega)
  have hstart := h.start_eq
  rw [ChunkIndexEntry.start] at hstart
  rw [ChunkIndexEntry.stop, hstart, hlen]

theorem ChunkWriter.Wrote.bytes_eq (tail : Bytes) :
    e.bytes (w'.file ++ tail) = encodeChunkRecord crc32c chunk lane := by
  rw [ChunkIndexEntry.bytes, slice, h.start_eq, h.stop_eq, h.file, encodeFrame]
  set header := encodeFrameHeader _ _ with hheader
  have hlen : header.length = frameHeaderLen := encodeFrameHeader_length ..
  have htake : (w.file ++ (header ++ encodeChunkRecord crc32c chunk lane)).length =
      w.file.length + frameHeaderLen + (encodeChunkRecord crc32c chunk lane).length := by
    rw [length_append, length_append, hlen, Nat.add_assoc]
  rw [take_left' htake, ← append_assoc, drop_left']
  rw [length_append, hlen]

end

end Step

structure ReadsBack (crc32c : Bytes → UInt32) (file : Bytes) (c : AppendCall)
    (e : ChunkIndexEntry) : Prop where
  record : decodeChunkRecord crc32c (e.bytes file) = .ok c.record
  layout : ∃ layout, decodeChunkRecordWithLayout crc32c (e.bytes file) = .ok (c.record, layout) ∧
    layout.flags = c.samples.flags ∧ layout.encoding = c.encoding
  kind : e.kind = c.samples.kind
  flags : e.flags = c.samples.flags
  minTimeMs : c.samples.timestamps.head? = some e.minTimeMs
  maxTimeMs : c.samples.timestamps.getLast? = some e.maxTimeMs

variable {w w' : ChunkWriter}

theorem Appended.readsBack {crc32c : Bytes → UInt32} {c : AppendCall}
    {e : ChunkIndexEntry} (h : Appended crc32c c.encoding c.seriesRef c.samples w e w')
    (tail : Bytes) : ReadsBack crc32c (w'.file ++ tail) c e := by
  obtain ⟨body, lane, -, hstored, hwrote⟩ := h
  have hdecode := decodeChunkRecordWithLayout_ok.mpr ⟨c.encoding, body, lane, hstored, rfl, rfl⟩
  rw [← hwrote.bytes_eq tail] at hdecode
  refine ⟨?_, ⟨c.record.layout c.encoding body lane, hdecode, rfl, rfl⟩, ?_, ?_, ?_, ?_⟩
  · rw [decodeChunkRecord, hdecode]
    rfl
  · rw [hwrote.entry]
    rfl
  · rw [hwrote.entry]
    rfl
  · rw [hwrote.entry]
    exact hstored.range.first
  · rw [hwrote.entry]
    exact hstored.range.last

/-- Appends only extend the file, and each entry reads back from whatever the file becomes. -/
theorem runAppends_sound {crc32c : Bytes → UInt32} {calls : List AppendCall}
    (hordered : ∀ c ∈ calls, c.Ordered) {entries : List ChunkIndexEntry}
    (h : runAppends crc32c calls w = .ok (entries, w')) :
    (∃ tail, w'.file = w.file ++ tail) ∧
      Consecutive w.file.length entries w'.file.length ∧
      List.Forall₂ (ReadsBack crc32c w'.file) calls entries := by
  induction calls generalizing w entries with
  | nil =>
    obtain ⟨rfl, rfl⟩ := Prod.mk.inj (Except.ok.inj h)
    exact ⟨⟨[], (append_nil _).symm⟩, rfl, .nil⟩
  | cons c calls ih =>
    simp only [runAppends, except_bind_ok, Prod.exists, except_pure_ok, Prod.mk.injEq] at h
    obtain ⟨e, w₁, hrun, entries, w₂, hrest, rfl, rfl⟩ := h
    simp only [mem_cons, forall_eq_or_imp] at hordered
    have happended := (run_ok hordered.1).mp hrun
    obtain ⟨⟨tail, htail⟩, hconsecutive, hreads⟩ := ih hordered.2 hrest
    obtain ⟨body, lane, -, -, hwrote⟩ := id happended
    have hlen : w₁.file.length = e.stop := by
      rw [hwrote.file, length_append, encodeFrame_length, hwrote.stop_eq, Nat.add_assoc]
    rw [hwrote.file, append_assoc] at htail
    refine ⟨⟨_, htail⟩, ⟨hwrote.start_eq, ?_⟩, .cons ?_ hreads⟩
    · rwa [← hlen]
    · rw [htail, ← append_assoc, ← hwrote.file]
      exact happended.readsBack tail

section Converse
variable {crc32c : Bytes → UInt32} {bs : Bytes} {record : ChunkRecord}
  {layout : DecodedChunkLayout} {encoding : ChunkEncoding} {body lane : Bytes}

theorem ChunkRecord.StoredAs.eq_ofSamples (h : record.StoredAs crc32c encoding body lane) :
    record = ChunkRecord.ofSamples record.seriesRef record.samples := by
  obtain ⟨seriesRef, kind, min, max, samples⟩ := record
  obtain ⟨hkind, hrange, -⟩ := h
  have hfirst := hrange.first
  have hlast := hrange.last
  dsimp only at hkind hfirst hlast
  rw [ChunkRecord.ofSamples, headD_eq_head?_getD, getLastD_eq_getLast?, hfirst, hlast, ← hkind]
  rfl

variable {samples : ChunkSamples}

theorem lane_eq_writtenLane {t0 : UInt64}
    (h : LaneFor crc32c t0 samples lane) (hpresent : samples.kind.isTyped → lane ≠ []) :
    lane = (writtenLane crc32c t0 samples).getD [] := by
  obtain rfl | ⟨rows, hrows, -, rfl⟩ := h
  · cases samples with
    | float _ => rfl
    | int64 _ => rfl
    | _ => exact absurd rfl (hpresent rfl)
  · rw [writtenLane, hrows]
    rfl

theorem ChunkWriter.exists_wrote (w : ChunkWriter) {chunk : DecodedChunkPayload} {lane : Bytes}
    (h : w.Room (encodeChunkRecord crc32c chunk lane).length) :
    ∃ e w', w.Wrote crc32c chunk lane e w' := by
  have hlt : w.file.length + (encodeFrame crc32c (encodeChunkRecord crc32c chunk lane)).length <
      2 ^ 64 := by
    rw [encodeFrame_length]
    exact h.2
  have hoffset : (UInt64.ofNat (w.file.length +
      (encodeFrame crc32c (encodeChunkRecord crc32c chunk lane)).length)).toNat =
      (w.file ++ encodeFrame crc32c (encodeChunkRecord crc32c chunk lane)).length := by
    rw [UInt64.toNat_ofNat_of_lt' hlt, length_append]
  exact ⟨_, ⟨_, _, w.fileId, hoffset⟩, h, rfl, rfl, rfl⟩

def orderedAppend (encoding : ChunkEncoding) (seriesRef : UInt32) :
    ChunkSamples → Option AppendCall
  | .float s => match encoding with
    | .gorilla => some (.floatChunkOrdered seriesRef s)
    | .rawF64 => some (.floatChunkRawOrdered seriesRef s)
    | _ => none
  | .int64 s => match encoding with
    | .intDeltaZigZag => some (.intChunkOrdered seriesRef s)
    | .rawI64 => some (.intChunkRawOrdered seriesRef s)
    | _ => none
  | .histogram s => match encoding with
    | .schemaVarLen => some (.histogramChunkOrdered seriesRef s)
    | _ => none
  | .exponentialHistogram s => match encoding with
    | .schemaVarLen => some (.exponentialHistogramChunkOrdered seriesRef s)
    | _ => none
  | .summary s => match encoding with
    | .schemaVarLen => some (.summaryChunkOrdered seriesRef s)
    | _ => none

theorem orderedAppend_contents {seriesRef : UInt32} {c : AppendCall}
    (h : orderedAppend encoding seriesRef samples = some c) :
    c.contents = (seriesRef, encoding, samples) := by
  cases samples <;> cases encoding <;> cases h <;> rfl

theorem exists_orderedAppend {t0 : UInt64} (seriesRef : UInt32)
    (h : encodeBody encoding t0 samples = .ok body) :
    ∃ c, orderedAppend encoding seriesRef samples = some c := by
  cases samples <;> cases encoding <;> first | exact ⟨_, rfl⟩ | cases h

/-- A record that is accepted with its lane is what the append of its samples writes, if there is
room for the frame. -/
theorem accepted_record_appends
    (h : decodeChunkRecordWithLayout crc32c bs = .ok (record, layout))
    (hlane : record.kind.isTyped → layout.scalarLaneBytes ≠ 0) {w : ChunkWriter}
    (hroom : w.Room bs.length) :
    ∃ c, orderedAppend layout.encoding record.seriesRef record.samples = some c ∧
      ∃ e w', c.run crc32c w = .ok (e, w') ∧ e.bytes w'.file = bs := by
  obtain ⟨encoding, body, lane, hstored, rfl, rfl⟩ := decodeChunkRecordWithLayout_ok.mp h
  obtain ⟨c, hc⟩ := exists_orderedAppend record.seriesRef hstored.encoded
  obtain ⟨e, w', hwrote⟩ := w.exists_wrote hroom
  have hcontents := orderedAppend_contents hc
  have hordered : c.Ordered := by
    rw [AppendCall.Ordered, AppendCall.samples, hcontents]
    exact hstored.range.ordered
  have hpresent : record.samples.kind.isTyped → lane ≠ [] := by
    rintro htyped rfl
    exact hlane (hstored.kind ▸ htyped) rfl
  have hwritten := lane_eq_writtenLane hstored.redundant hpresent
  refine ⟨c, hc, e, w', (AppendCall.run_ok hordered).mpr ?_, ?_⟩
  · rw [AppendCall.encoding, AppendCall.seriesRef, AppendCall.samples, hcontents]
    have hrecord := hstored.eq_ofSamples
    refine ⟨body, lane, ?_, hrecord ▸ hstored, hrecord ▸ hwrote⟩
    rw [hrecord] at hwritten
    exact hwritten
  · have hbytes := hwrote.bytes_eq []
    rwa [append_nil] at hbytes

end Converse

/-- Entries of successful appends lie one behind the other with only frame headers between them
and read back as what was appended; and an accepted record that leaves its frame a `u32` length is
the one its samples are appended as. -/
theorem chunk_file_round_trip (crc32c : Bytes → UInt32) :
    (∀ (calls : List AppendCall) (w w' : ChunkWriter) (entries : List ChunkIndexEntry),
      (∀ c ∈ calls, c.Ordered) → runAppends crc32c calls w = .ok (entries, w') →
      Consecutive w.file.length entries w'.file.length ∧
        entries.Pairwise (fun a b => a.stop ≤ b.start) ∧
        List.Forall₂ (ReadsBack crc32c w'.file) calls entries) ∧
    ∀ (bs : Bytes) (record : ChunkRecord) (layout : DecodedChunkLayout) (w : ChunkWriter),
      decodeChunkRecordWithLayout crc32c bs = .ok (record, layout) →
      (record.kind.isTyped → layout.scalarLaneBytes ≠ 0) →
      frameHeaderLen + bs.length < 2 ^ 32 →
      w.file.length + (frameHeaderLen + bs.length) < 2 ^ 64 →
      ∃ c, orderedAppend layout.encoding record.seriesRef record.samples = some c ∧
        ∃ e w', c.run crc32c w = .ok (e, w') ∧ e.bytes w'.file = bs := by
  constructor
  · intro calls w w' entries hordered hrun
    obtain ⟨-, hconsecutive, hreads⟩ := runAppends_sound hordered hrun
    exact ⟨hconsecutive, hconsecutive.pairwise.2, hreads⟩
  · intro bs record layout w hdecode hlane hframe hfile
    exact accepted_record_appends hdecode hlane ⟨hframe, hfile⟩

def ChunkWriter.empty : ChunkWriter := ⟨[], 0, 0, rfl⟩

/-- A Gorilla chunk, a chunk of integer deltas and a histogram with its scalar lane in one file, and
the histogram's record appended once more. -/
theorem chunk_file_round_trip_histogram :
    let calls : List AppendCall := [.floatChunkOrdered 7 [(10, F64.one), (12, F64.zero)],
      .intChunkOrdered 8 [(5, 3), (9, -2)],
      .histogramChunkOrdered 9 [(20, ⟨3, some F64.one, none, none, ⟨none, 0, .delta, .unknown⟩,
        [F64.one], [1, 2]⟩)]]
    ∃ a b c w', runAppends (fun _ => 0) calls .empty = .ok ([a, b, c], w') ∧
      a.start = 14 ∧ a.stop + 14 = b.start ∧ b.stop + 14 = c.start ∧ c.stop = w'.file.length ∧
      List.Forall₂ (ReadsBack (fun _ => 0) w'.file) calls [a, b, c] ∧
      ∃ record layout, decodeChunkRecordWithLayout (fun _ => 0) (c.bytes w'.file) =
          .ok (record, layout) ∧ record.kind.isTyped ∧ layout.scalarLaneBytes ≠ 0 ∧
        ∃ call, orderedAppend layout.encoding record.seriesRef record.samples = some call ∧
          ∃ e w'', call.run (fun _ => 0) w' = .ok (e, w'') ∧
            e.bytes w''.file = c.bytes w'.file := by
  intro calls
  have hlane : (runAppends (fun _ => 0) calls .empty).toOption.all fun (entries, w') =>
      entries.getLast?.all fun c => (c.bytes w'.file).length = 119 ∧ w'.file.length = 274 ∧
        (decodeChunkRecordWithLayout (fun _ => 0) (c.bytes w'.file)).toOption.all
          fun (_, layout) => layout.scalarLaneBytes ≠ 0 := by
    decide +kernel
  obtain ⟨a, b, c, w', hrun⟩ : ∃ a b c w',
    runAppends (fun _ => 0) calls .empty = .ok ([a, b, c], w') := ⟨_, _, _, _, rfl⟩
  obtain ⟨hforward, hconverse⟩ := chunk_file_round_trip fun _ => 0
  obtain ⟨⟨ha, hb, hc, hstop⟩, -, hreads⟩ := hforward calls .empty w' [a, b, c]
    (by simp [calls, AppendCall.Ordered, samples, contents, ChunkSamples.timestamps]) hrun
  have hlast := (forall₂_cons.mp (forall₂_cons.mp (forall₂_cons.mp hreads).2).2).1
  obtain ⟨layout, hdecode, -⟩ := hlast.layout
  rw [hrun] at hlane
  obtain ⟨hlength, hfile, hlane⟩ : (c.bytes w'.file).length = 119 ∧ w'.file.length = 274 ∧
      layout.scalarLaneBytes ≠ 0 := by
    simpa [Except.toOption, hdecode] using hlane
  exact ⟨a, b, c, w', hrun, ha, hb.symm, hc.symm, hstop, hreads, _, layout, hdecode, rfl, hlane,
    hconverse _ _ layout w' hdecode (fun _ => hlane) (by rw [hlength]; decide)
      (by rw [hlength, hfile]; decide)⟩

section Oversized

def zeroSamples (n : Nat) : List (UInt64 × F64) := List.replicate n (0, F64.zero)

theorem encodeRawBody_zeroSamples (n : Nat) :
    (encodeRawBody encodeF64 0 (zeroSamples n)).length = n * 9 := by
  induction n with
  | zero => rfl
  | succ n ih =>
    have hone : (encodeRawSample encodeF64 0 ((0 : UInt64), F64.zero)).length = 9 := by decide
    rw [zeroSamples, replicate_succ, encodeRawBody, flatMap_cons, length_append,
      hone, ← encodeRawBody, ← zeroSamples, ih]
    omega

theorem zeroSamples_storedAs {n : Nat} (hpos : n ≠ 0) (hshort : n * 9 + 8 < 2 ^ 32) :
    (ChunkRecord.mk 0 .float 0 0 (.float (zeroSamples n))).StoredAs (fun _ => 0) .rawF64
      (encodeRawBody encodeF64 0 (zeroSamples n)) [] := by
  have htimes : (ChunkSamples.float (zeroSamples n)).timestamps = replicate n 0 :=
    map_replicate
  refine ⟨rfl, ?_, ?_, rfl, .inl rfl, ?_, ?_⟩
  · refine ⟨?_, ?_, ?_⟩
    · rw [htimes, head?_replicate, if_neg hpos]
    · rw [htimes, getLast?_replicate, if_neg hpos]
    · rw [htimes]
      exact pairwise_replicate.mpr (.inr (UInt64.le_refl 0))
  · change (ChunkSamples.float (zeroSamples n)).timestamps.length < 2 ^ 32
    rw [htimes, length_replicate]
    omega
  · decide
  · rw [ChunkRecord.stored, length_append, u64ToLe_length, encodeRawBody_zeroSamples]
    omega

theorem zeroSamples_not_appended {n : Nat} (hlong : 2 ^ 32 ≤ n * 9 + 62) {e : ChunkIndexEntry} :
    ¬Appended (fun _ => 0) .rawF64 0 (.float (zeroSamples n)) w e w' := by
  rintro ⟨body, lane, -, hstored, hwrote⟩
  have hroom := hwrote.room.1
  have hfirst : (ChunkSamples.float (zeroSamples n)).timestamps.headD 0 = 0 := by
    cases n <;> rfl
  have hbody : encodeRawBody encodeF64 0 (zeroSamples n) = body := by
    have hencoded := hstored.encoded
    rw [ChunkRecord.ofSamples, hfirst] at hencoded
    exact Except.ok.inj hencoded
  rw [encodeChunkRecord_length, ChunkRecord.stored, length_append, u64ToLe_length, ← hbody,
    encodeRawBody_zeroSamples, frameHeaderLen, chunkHeaderLen] at hroom
  omega

/-- The reader takes a record of 2^32 - 10 bytes, but no append can frame it. -/
theorem oversized_record_not_appendable :
    ∃ bs record layout, decodeChunkRecordWithLayout (fun _ => 0) bs = .ok (record, layout) ∧
      record.kind.isTyped = false ∧
      ∀ (c : AppendCall) (w : ChunkWriter) (r : ChunkIndexEntry × ChunkWriter),
        c.contents = (record.seriesRef, layout.encoding, record.samples) →
        c.run (fun _ => 0) w ≠ .ok r := by
  have hstored := zeroSamples_storedAs (n := 477218582) (by decide) (by decide)
  refine ⟨_, _, _, decodeChunkRecordWithLayout_ok.mpr ⟨_, _, _, hstored, rfl, rfl⟩, rfl, ?_⟩
  rintro c w ⟨e, w'⟩ hcontents hrun
  have hordered : c.Ordered := by
    rw [AppendCall.Ordered, samples, hcontents]
    exact hstored.range.ordered
  have happended := (run_ok hordered).mp hrun
  rw [encoding, seriesRef, samples, hcontents] at happended
  exact zeroSamples_not_appended (n := 477218582) (by decide) happended

end Oversized

end Chronoxide
