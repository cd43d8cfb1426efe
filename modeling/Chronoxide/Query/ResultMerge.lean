import Chronoxide.Query.ResultDedupe

/-! Results put together from fragments. However the samples of a series are spread over stored
fragments, merged, and deduplicated on the way, the last deduplication gives what one fragment would
have given. -/

namespace Chronoxide
open KeepLast ResultRow List

/-- Sums and counts are never the stale marker, a signalling NaN. -/
structure FloatOps.NeverStale (ops : FloatOps) : Prop where
  add : ∀ a b, (ops.add a b).isStaleMarker = false
  ofU64 : ∀ n, (ops.ofU64 n).isStaleMarker = false

variable (row : ResultRow)

def ResultRow.replayed : Bool :=
  !row.sample.2.isStaleMarker && row.deltaInterval.isSome

def ResultRow.stripped : ResultRow :=
  if row.replayed then { row with sample := (row.sample.1, F64.zero), hint := .unknown } else row

theorem ResultRow.stripped_key : row.stripped.key = row.key := by
  unfold stripped
  split <;> rfl

namespace DeltaReplay
variable (ops : FloatOps)

theorem row_of_not_replayed {row : ResultRow} (h : row.replayed = false) (s : DeltaReplay) :
    s.row ops row = (start, row) := by
  unfold DeltaReplay.row
  cases hstale : row.sample.2.isStaleMarker with
  | true => rfl
  | false =>
    cases hinterval : row.deltaInterval with
    | none => rfl
    | some delta => simp [replayed, hstale, hinterval] at h

theorem row_of_replayed {row : ResultRow} (h : row.replayed = true) (s : DeltaReplay) :
    ∃ delta, row.deltaInterval = some delta ∧
      s.row ops row = ((s.interval ops row.sample.1 row.startTime delta).1,
        { row with
          sample := (row.sample.1, (s.interval ops row.sample.1 row.startTime delta).2.1)
          hint := (s.interval ops row.sample.1 row.startTime delta).2.2 }) := by
  obtain ⟨hstale, hinterval⟩ := Bool.and_eq_true_iff.mp h
  obtain ⟨delta, hdelta⟩ := Option.isSome_iff_exists.mp hinterval
  refine ⟨delta, hdelta, ?_⟩
  rw [DeltaReplay.row, if_neg (by simpa using hstale)]
  simp [hdelta]

theorem row_stripped (s : DeltaReplay) (row : ResultRow) :
    s.row ops row.stripped = s.row ops row := by
  cases h : row.replayed with
  | false => rw [stripped, h, if_neg Bool.false_ne_true]
  | true =>
    have hstripped : row.stripped.replayed = true := by
      rw [stripped, if_pos h]
      exact (Bool.and_eq_true_iff.mp h).2
    obtain ⟨delta, hdelta, hrow⟩ := row_of_replayed ops h s
    obtain ⟨delta', hdelta', hrow'⟩ := row_of_replayed ops hstripped s
    rw [stripped, if_pos h] at hdelta' hrow' ⊢
    obtain rfl := Option.some.inj (hdelta.symm.trans hdelta')
    rw [hrow, hrow']

theorem rows_stripped (s : DeltaReplay) (rows : List ResultRow) :
    s.rows ops (rows.map stripped) = s.rows ops rows := by
  induction rows generalizing s with
  | nil => rfl
  | cons row rest ih =>
    rw [map_cons, DeltaReplay.rows, DeltaReplay.rows, row_stripped, ih]

theorem interval_not_stale {ops : FloatOps} (hops : ops.NeverStale) (s : DeltaReplay)
    (timestampMs : UInt64) (startTime : Option UInt64) (delta : DeltaProjectionInterval) :
    (s.interval ops timestampMs startTime delta).2.1.isStaleMarker = false := by
  cases delta with
  | count raw hint => exact hops.ofU64 _
  | sum raw hint => exact hops.add _ _

theorem stripped_row {ops : FloatOps} (hops : ops.NeverStale) (s : DeltaReplay) (row : ResultRow) :
    (s.row ops row).2.stripped = row.stripped := by
  cases h : row.replayed with
  | false => rw [row_of_not_replayed ops h]
  | true =>
    obtain ⟨delta, hdelta, hrow⟩ := row_of_replayed ops h s
    have hreplayed : (s.row ops row).2.replayed = true := by
      rw [hrow, replayed, interval_not_stale hops, hdelta]
      rfl
    rw [stripped, if_pos hreplayed, stripped, if_pos h, hrow]

end DeltaReplay

def ResultColumns.deduped (columns : ResultColumns) : ResultColumns :=
  { columns with hints := columns.hints || columns.deltaIntervals }

theorem ResultColumns.deduped_union (a b : ResultColumns) :
    (a.union b).deduped = a.deduped.union b.deduped := by
  refine ResultColumns.ext ?_ rfl rfl rfl
  simp [ResultColumns.deduped, ResultColumns.union, Bool.or_assoc, Bool.or_left_comm]

theorem ResultColumns.deduped_deduped (a : ResultColumns) : a.deduped.deduped = a.deduped := by
  refine ResultColumns.ext ?_ rfl rfl rfl
  simp [ResultColumns.deduped]

namespace ResultTable

structure Alike (T U : ResultTable) : Prop where
  last : ∀ k, (last? ResultRow.key k T.rows).map ResultRow.stripped =
    (last? ResultRow.key k U.rows).map ResultRow.stripped
  columns : T.columns.deduped = U.columns.deduped

variable {ops : FloatOps} {T T' U U' : ResultTable}

theorem Alike.refl (T : ResultTable) : Alike T T := ⟨fun _ => rfl, rfl⟩

theorem Alike.trans {V : ResultTable} (h : Alike T U) (h' : Alike U V) : Alike T V :=
  ⟨fun k => (h.last k).trans (h'.last k), h.columns.trans h'.columns⟩

theorem Alike.append (h : Alike T T') (h' : Alike U U') : Alike (T.append U) (T'.append U') where
  last k := by
    simp only [ResultTable.append, last?_append, Option.map_or]
    rw [h.last, h'.last]
  columns := by
    simp only [ResultTable.append, ResultColumns.deduped_union]
    rw [h.columns, h'.columns]

theorem stripped_last (rows : List ResultRow) (k : Nat) :
    last? key k (rows.map stripped) =
      (last? key k rows).map stripped :=
  last?_map stripped_key k rows

theorem dedupe_alike (hops : ops.NeverStale) (T : ResultTable) : Alike (T.dedupe ops) T where
  last k := by
    have hrows : (T.dedupe ops).rows.map stripped =
        (keptRows T.rows).map stripped :=
      DeltaReplay.map_rows ops (DeltaReplay.stripped_row hops) _ _
    rw [← stripped_last, hrows, stripped_last, last?_keptRows]
  columns := T.columns.deduped_deduped

theorem Alike.dedupe_eq (h : Alike T U) : T.dedupe ops = U.dedupe ops := by
  have hkept : (keptRows T.rows).map stripped =
      (keptRows U.rows).map stripped := by
    apply ((keptRows_increasing T.rows).map stripped_key).ext
      ((keptRows_increasing U.rows).map stripped_key)
    intro k
    rw [stripped_last, stripped_last, last?_keptRows, last?_keptRows, h.last]
  apply ResultTable.ext
  · calc (T.dedupe ops).rows
      _ = DeltaReplay.start.rows ops ((keptRows T.rows).map stripped) :=
        (DeltaReplay.rows_stripped ops _ _).symm
      _ = DeltaReplay.start.rows ops ((keptRows U.rows).map stripped) := by rw [hkept]
      _ = (U.dedupe ops).rows := DeltaReplay.rows_stripped ops _ _
  · exact h.columns

variable (samples : List PushedSample)

def ofSamples : ResultTable :=
  samples.foldl (fun T s => T.append (single s)) empty

theorem append_rows (T U : ResultTable) : (T.append U).rows = T.rows ++ U.rows := rfl

variable (T)

theorem empty_append : empty.append T = T := rfl

theorem append_assoc (T U V : ResultTable) : (T.append U).append V = T.append (U.append V) := by
  apply ResultTable.ext
  · exact List.append_assoc ..
  · exact ResultColumns.ext (Bool.or_assoc ..) (Bool.or_assoc ..) (Bool.or_assoc ..)
      (Bool.or_assoc ..)

theorem append_empty : T.append empty = T := by
  apply ResultTable.ext
  · exact append_nil _
  · exact ResultColumns.ext (Bool.or_false _) (Bool.or_false _) (Bool.or_false _) (Bool.or_false _)

theorem foldl_append_single :
    samples.foldl (fun T s => T.append (single s)) T = T.append (ofSamples samples) := by
  induction samples generalizing T with
  | nil => exact T.append_empty.symm
  | cons s rest ih =>
    have hcons : ofSamples (s :: rest) = (single s).append (ofSamples rest) := ih (single s)
    rw [foldl_cons, ih, append_assoc, hcons]

theorem ofSamples_append (samples samples' : List PushedSample) :
    ofSamples (samples ++ samples') = (ofSamples samples).append (ofSamples samples') := by
  rw [ofSamples, foldl_append, foldl_append_single]
  rfl

theorem ofSamples_rows : (ofSamples samples).rows = samples.map PushedSample.row := by
  induction samples with
  | nil => rfl
  | cons s rest ih =>
    rw [← singleton_append, ofSamples_append, append_rows, ih, map_append]
    rfl

variable {seriesId : UInt64} {labels : LabelRow}

theorem pushAll_toResult : (T.toResult seriesId labels).pushAll samples =
      (T.append (ofSamples samples)).toResult seriesId labels := by
  rw [← foldl_append_single]
  induction samples generalizing T with
  | nil => rfl
  | cons s rest ih =>
    rw [SegmentQueryResult.pushAll, foldl_cons, push_toResult, foldl_cons]
    exact ih _

theorem pushAll_new : (SegmentQueryResult.new seriesId labels).pushAll samples =
      (ofSamples samples).toResult seriesId labels := by
  rw [← toResult_empty, pushAll_toResult, empty_append]

theorem dedupe_rows : (T.dedupe ops).rows = DeltaReplay.start.rows ops (keptRows T.rows) := rfl

theorem dedupe_increasing :
    Increasing sampleKey ((T.dedupe ops).toResult seriesId labels).samples := by
  have hkeys : (T.dedupe ops).rows.map key = (keptRows T.rows).map key :=
    DeltaReplay.map_rows ops (fun s row => (DeltaReplay.row_frame ops s row).1) _ _
  have hkept : ((keptRows T.rows).map key).Pairwise (· < ·) :=
    pairwise_map.mpr (keptRows_increasing T.rows)
  rw [← hkeys, pairwise_map] at hkept
  exact pairwise_map.mpr hkept

end ResultTable

/-- A way to put a result together: fragments built on their own, merged in any bracketing, and
deduplicated wherever one likes. -/
inductive Assembly
  | fragment (samples : List PushedSample)
  | extend (left right : Assembly)
  | dedupe (a : Assembly)

/-- Every column is absent or as long as the samples. -/
def SegmentQueryResult.Aligned (r : SegmentQueryResult) : Prop :=
  (r.counterResetHints = [] ∨ r.counterResetHints.length = r.samples.length) ∧
    (r.sampleStartTimes = [] ∨ r.sampleStartTimes.length = r.samples.length) ∧
    (r.sampleTemporalities = [] ∨ r.sampleTemporalities.length = r.samples.length) ∧
    (r.deltaProjectionIntervals = [] ∨ r.deltaProjectionIntervals.length = r.samples.length)

def PushedSample.key (s : PushedSample) : Nat := s.timestampMs.toNat

theorem PushedSample.row_key (s : PushedSample) : s.row.key = s.key := by
  unfold PushedSample.row
  split <;> rfl

theorem keptRows_map {samples kept : List PushedSample} (h : Increasing PushedSample.key kept)
    (hlast : ∀ k, last? PushedSample.key k kept = last? PushedSample.key k samples) :
    kept.map PushedSample.row = keptRows (samples.map PushedSample.row) := by
  apply keptRows_eq (h.map PushedSample.row_key)
  intro k
  rw [last?_map PushedSample.row_key, last?_map PushedSample.row_key, hlast]

namespace Assembly

def samples : Assembly → List PushedSample
  | .fragment samples => samples
  | .extend left right => left.samples ++ right.samples
  | .dedupe a => a.samples

def build (ops : FloatOps) (seriesId : UInt64) (labels : LabelRow) : Assembly → SegmentQueryResult
  | .fragment samples => (SegmentQueryResult.new seriesId labels).pushAll samples
  | .extend left right =>
    (build ops seriesId labels left).extendFrom (build ops seriesId labels right)
  | .dedupe a => (build ops seriesId labels a).dedupeSamplesKeepLast ops

def table (ops : FloatOps) : Assembly → ResultTable
  | .fragment samples => .ofSamples samples
  | .extend left right => (left.table ops).append (right.table ops)
  | .dedupe a => (a.table ops).dedupe ops

variable {ops : FloatOps} {seriesId : UInt64} {labels : LabelRow}

theorem build_eq (a : Assembly) :
    a.build ops seriesId labels = (a.table ops).toResult seriesId labels := by
  induction a with
  | fragment samples => exact ResultTable.pushAll_new samples
  | extend left right ihl ihr => rw [build, ihl, ihr, ResultTable.extendFrom_toResult, table]
  | dedupe a ih => rw [build, ih, ResultTable.dedupe_toResult, table]

theorem table_alike (hops : ops.NeverStale) (a : Assembly) :
    (a.table ops).Alike (.ofSamples a.samples) := by
  induction a with
  | fragment samples => exact .refl _
  | extend left right ihl ihr =>
    rw [samples, ResultTable.ofSamples_append]
    exact ihl.append ihr
  | dedupe a ih => exact (ResultTable.dedupe_alike hops _).trans ih

theorem build_aligned (a : Assembly) : (a.build ops seriesId labels).Aligned := by
  have hlength : (a.build ops seriesId labels).samples.length = (a.table ops).rows.length := by
    rw [build_eq]
    exact length_map ..
  unfold SegmentQueryResult.Aligned
  rw [hlength, build_eq]
  exact ⟨Sidecar.length_column .., Sidecar.length_column .., Sidecar.length_column ..,
    Sidecar.length_column ..⟩

/-- Deduplicated, the result is the one of all samples pushed into a single fragment: the last
sample of every timestamp, in order, with the running totals computed over those. The columns stay
aligned throughout. -/
theorem dedupe_build (hops : ops.NeverStale) (seriesId : UInt64) (labels : LabelRow)
    (a : Assembly) :
    (a.build ops seriesId labels).dedupeSamplesKeepLast ops =
        ((SegmentQueryResult.new seriesId labels).pushAll a.samples).dedupeSamplesKeepLast ops ∧
      (a.build ops seriesId labels).Aligned ∧
      ((a.build ops seriesId labels).dedupeSamplesKeepLast ops).Aligned ∧
      Increasing sampleKey ((a.build ops seriesId labels).dedupeSamplesKeepLast ops).samples ∧
      ∃ kept : List PushedSample, Increasing PushedSample.key kept ∧
        (∀ k, last? PushedSample.key k kept = last? PushedSample.key k a.samples) ∧
        ((a.build ops seriesId labels).dedupeSamplesKeepLast ops).rows =
          DeltaReplay.start.rows ops (kept.map PushedSample.row) := by
  have halike := table_alike hops a
  have htable : (a.build ops seriesId labels).dedupeSamplesKeepLast ops =
      ((ResultTable.ofSamples a.samples).dedupe ops).toResult seriesId labels := by
    rw [build_eq, ResultTable.dedupe_toResult, halike.dedupe_eq]
  refine ⟨?_, build_aligned a, build_aligned (.dedupe a), ?_, ?_⟩
  · rw [htable, ResultTable.pushAll_new, ResultTable.dedupe_toResult]
  · rw [htable]
    exact ResultTable.dedupe_increasing _
  let kept := keepLast PushedSample.key (a.samples.mergeSort fun s s' => s.key ≤ s'.key)
  obtain ⟨hincreasing, hlast⟩ : Increasing PushedSample.key kept ∧
      ∀ k, last? PushedSample.key k kept = last? PushedSample.key k a.samples :=
    keepLast_mergeSort_key a.samples
  refine ⟨kept, hincreasing, hlast, ?_⟩
  rw [htable, ResultTable.toResult_rows, ResultTable.dedupe_rows, ResultTable.ofSamples_rows,
    ← keptRows_map hincreasing hlast]

def smallOps : FloatOps where
  add a b := ⟨(a.bits + b.bits) % 1024⟩
  ofU64 n := ⟨n % 1024⟩

theorem smallOps_neverStale : smallOps.NeverStale := by
  have hsmall (n : UInt64) : (F64.mk (n % 1024)).isStaleMarker = false := by
    apply decide_eq_false
    intro h
    have hlt : (F64.mk (n % 1024)).bits.toNat < 1024 := by
      exact Nat.mod_lt _ (by decide)
    rw [h] at hlt
    exact absurd hlt (by decide)
  exact ⟨fun _ _ => hsmall _, hsmall⟩

def deltaSum (timestampMs startTimeMs : UInt64) (raw : F64) : PushedSample :=
  ⟨timestampMs, raw, some (.unknown, .delta, some startTimeMs), some (.sum raw .unknown)⟩

def cutAssembly : Assembly :=
  .extend (.dedupe (.fragment [deltaSum 10 0 ⟨1⟩]))
    (.fragment [deltaSum 20 10 ⟨2⟩, deltaSum 30 20 ⟨8⟩])

theorem dedupe_build_cut :
    (cutAssembly.build smallOps 7 []).dedupeSamplesKeepLast smallOps =
        ((SegmentQueryResult.new 7 []).pushAll cutAssembly.samples).dedupeSamplesKeepLast
          smallOps ∧
      ((SegmentQueryResult.new 7 []).pushAll cutAssembly.samples).dedupeSamplesKeepLast smallOps =
        { SegmentQueryResult.new 7 [] with
          samples := [(10, ⟨1⟩), (20, ⟨3⟩), (30, ⟨11⟩)]
          counterResetHints := [.counterReset, .notCounterReset, .notCounterReset]
          sampleStartTimes := [some 0, some 10, some 20]
          sampleTemporalities := [.delta, .delta, .delta]
          temporality := .delta
          deltaProjectionIntervals :=
            [some (.sum ⟨1⟩ .unknown), some (.sum ⟨2⟩ .unknown), some (.sum ⟨8⟩ .unknown)] } :=
  ⟨(dedupe_build smallOps_neverStale 7 [] cutAssembly).1, by decide +kernel⟩

def passingOps : FloatOps := ⟨fun _ raw => raw, F64.mk⟩

/-- A sum that is the stale marker reads as a gap the next time. -/
theorem stale_sum_observable :
    ¬ ∀ (ops : FloatOps) (seriesId : UInt64) (labels : LabelRow) (a : Assembly),
      ((a.build ops seriesId labels).dedupeSamplesKeepLast ops).counterResetHints =
        (((SegmentQueryResult.new seriesId labels).pushAll a.samples).dedupeSamplesKeepLast
          ops).counterResetHints := by
  intro h
  let first := { deltaSum 10 0 prometheusStaleNan with value := F64.zero }
  have hhints := h passingOps 7 []
    (.extend (.dedupe (.fragment [first])) (.fragment [deltaSum 20 10 ⟨2⟩]))
  revert hhints
  decide +kernel

end Assembly

end Chronoxide
