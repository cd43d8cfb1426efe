import Chronoxide.Query.ResultTable

/-! Deduplication on tables. The three ways in which the code drops equal timestamps keep the same
rows, the last of each timestamp in order. -/

namespace Chronoxide
open KeepLast SegmentQueryResult Sidecar List

def ResultRow.key (row : ResultRow) : Nat := sampleKey row.sample

variable (rows : List ResultRow)

def keptRows : List ResultRow :=
  keepLast ResultRow.key (rows.mergeSort fun a b => a.key ≤ b.key)

theorem keptRows_increasing : Increasing ResultRow.key (keptRows rows) :=
  (keepLast_mergeSort_key rows).1

theorem last?_keptRows (k : Nat) :
    last? ResultRow.key k (keptRows rows) = last? ResultRow.key k rows :=
  (keepLast_mergeSort_key rows).2 k

variable {rows : List ResultRow}

theorem mem_of_mem_keptRows {row : ResultRow} (h : row ∈ keptRows rows) : row ∈ rows :=
  mem_mergeSort.mp (mem_of_mem_keepLast h)

theorem keptRows_eq {rows kept : List ResultRow} (h : Increasing ResultRow.key kept)
    (hlast : ∀ k, last? ResultRow.key k kept = last? ResultRow.key k rows) : kept = keptRows rows :=
  h.ext (keptRows_increasing rows) fun k => (hlast k).trans (last?_keptRows rows k).symm

theorem keptRows_eq_nil (h : keptRows rows = []) : rows = [] := by
  apply eq_nil_iff_forall_not_mem.mpr
  intro row hrow
  have hnone : last? ResultRow.key row.key rows = none := by
    rw [← last?_keptRows, h]
    rfl
  exact ne_of_last?_eq_none hnone row hrow rfl

instance : IsTrans (UInt64 × F64) fun a b => sampleKey a ≤ sampleKey b :=
  ⟨fun _ _ _ => Nat.le_trans⟩

instance : IsTrans (UInt64 × F64) fun a b => sampleKey a < sampleKey b :=
  ⟨fun _ _ _ => Nat.lt_trans⟩

theorem hasDuplicateOrUnsorted_some {hasDuplicate d : Bool} {samples : List (UInt64 × F64)}
    (h : hasDuplicateOrUnsorted hasDuplicate samples = some d) :
    samples.Pairwise (fun a b => sampleKey a ≤ sampleKey b) ∧
      (d = false → hasDuplicate = false ∧ Increasing sampleKey samples) := by
  fun_induction hasDuplicateOrUnsorted with
  | case1 => cases h
  | case2 hasDuplicate previous current rest hle ih =>
    obtain ⟨hsorted, hstrict⟩ := ih h
    have hle : sampleKey previous ≤ sampleKey current :=
      UInt64.le_iff_toNat_le.mp (UInt64.not_lt.mp hle)
    refine ⟨List.Pairwise.cons_cons_of_trans hle hsorted, fun hd => ?_⟩
    obtain ⟨hfalse, hrest⟩ := hstrict hd
    obtain ⟨hdup, hne⟩ := Bool.or_eq_false_iff.mp hfalse
    have hne : sampleKey previous ≠ sampleKey current := fun heq =>
      of_decide_eq_false hne (UInt64.toNat_inj.mp heq)
    exact ⟨hdup, List.Pairwise.cons_cons_of_trans (lt_of_le_of_ne hle hne) hrest⟩
  | case3 samples hasDuplicate hshort =>
    obtain rfl := Option.some.inj h
    match samples with
    | [] => exact ⟨.nil, fun hd => ⟨hd, .nil⟩⟩
    | [a] => exact ⟨pairwise_singleton .., fun hd => ⟨hd, pairwise_singleton ..⟩⟩
    | a :: b :: rest => exact absurd rfl (hshort a b rest)

section Tabulated
variable {seriesId : UInt64} {labels : LabelRow} {columns : ResultColumns}
  {temporality : QueryResultTemporality}

theorem onColumns_tabulate {f : ∀ {α : Type}, List α → List α}
    (hf : ∀ {α β : Type} (g : α → β) (l : List α), f (l.map g) = (f l).map g)
    (rows : List ResultRow) :
    (tabulate seriesId labels columns temporality rows).onColumns columns f =
      tabulate seriesId labels columns temporality (f rows) := by
  have hcolumn {α : Type} (present : Bool) (field : ResultRow → α) :
      (if present then f (column present field rows)
        else column present field rows) = column present field (f rows) := by
    cases present with
    | true => exact hf field rows
    | false => rfl
  simp [onColumns, tabulate, hcolumn, hf]

variable (rows : List ResultRow)

theorem clearAbsent_tabulate :
    (tabulate seriesId labels columns temporality rows).clearAbsent columns =
      tabulate seriesId labels columns temporality rows := by
  have hcolumn {α : Type} (present : Bool) (field : ResultRow → α) :
      (if present then column present field rows else []) =
        column present field rows := by
    cases present <;> rfl
  simp [clearAbsent, tabulate, hcolumn]

theorem runEnd_map_sample (i k : Nat) :
    runEnd sampleKey (rows.map (·.sample)) i k = runEnd ResultRow.key rows i k := by
  rw [runEnd, ← map_drop, takeWhile_map, length_map]
  rfl

theorem map_moveTo {α β : Type} (g : α → β) (l : List α) (source target : Nat) :
    moveTo (l.map g) source target = (moveTo l source target).map g := by
  unfold moveTo
  split
  · rfl
  rw [getElem?_map]
  cases l[source]? with
  | none => rfl
  | some a => exact map_set.symm

theorem compactFrom_tabulate (writeIdx readIdx : Nat) :
    (tabulate seriesId labels columns temporality rows).compactFrom columns writeIdx readIdx =
      tabulate seriesId labels columns temporality
        (compactLoop ResultRow.key rows writeIdx readIdx) := by
  fun_induction compactLoop ResultRow.key rows writeIdx readIdx with
  | case1 rows writeIdx readIdx hnone =>
    rw [compactFrom]
    split
    · rw [onColumns_tabulate fun _ _ => map_take.symm, clearAbsent_tabulate]
    · rename_i hsample
      rw [tabulate, getElem?_map, hnone] at hsample
      cases hsample
  | case2 rows writeIdx readIdx row hrow ih =>
    have hread : (tabulate seriesId labels columns temporality rows).samples[readIdx]? =
        some row.sample := by
      rw [tabulate, getElem?_map, hrow]
      rfl
    rw [compactFrom]
    split
    · rename_i hnone
      rw [hread] at hnone
      cases hnone
    rename_i sample hsample
    obtain rfl := Option.some.inj (hread.symm.trans hsample)
    have hend : runEnd sampleKey (tabulate seriesId labels columns temporality rows).samples
        readIdx (sampleKey row.sample) = runEnd ResultRow.key rows readIdx row.key :=
      runEnd_map_sample ..
    simp only
    rw [onColumns_tabulate fun _ _ => map_moveTo .., hend]
    exact ih

theorem pushRow_tabulate (row : ResultRow) :
    (tabulate seriesId labels columns temporality rows).pushRow columns row =
      tabulate seriesId labels columns temporality (rows ++ [row]) := by
  have hcolumn {α : Type} (present : Bool) (field : ResultRow → α) :
      (if present then column present field rows ++ [field row]
        else column present field rows) =
        column present field (rows ++ [row]) := by
    cases present with
    | true => exact (column_concat ..).symm
    | false => rfl
  simp only [pushRow, tabulate, hcolumn, map_append, map_singleton]

theorem putRow_tabulate (row : ResultRow) :
    (tabulate seriesId labels columns temporality rows).putRow columns row =
      tabulate seriesId labels columns temporality (replaceLast ResultRow.key rows row) := by
  have hlast : (tabulate seriesId labels columns temporality rows).lastTimestamp? =
      some row.sample.1 ↔ ∃ last, rows.getLast? = some last ∧ last.key = row.key := by
    simp [lastTimestamp?, tabulate, getLast?_map, Option.map_map, Option.map_eq_some_iff,
      Function.comp_apply, ResultRow.key, sampleKey, UInt64.toNat_inj]
  unfold putRow replaceLast
  cases hrows : rows.getLast? with
  | none =>
    have hnil : rows = [] := getLast?_eq_none_iff.mp hrows
    rw [if_neg (by simp [hlast, hrows]), pushRow_tabulate, hnil]
    rfl
  | some last =>
    by_cases hkey : last.key = row.key
    · rw [if_pos (hlast.mpr ⟨last, hrows, hkey⟩), onColumns_tabulate fun _ _ => map_dropLast.symm,
        pushRow_tabulate]
      simp [if_pos hkey]
    have hne : ¬ ∃ b, rows.getLast? = some b ∧ b.key = row.key := by
      rintro ⟨b, hb, hbrow⟩
      obtain rfl := Option.some.inj (hrows.symm.trans hb)
      exact hkey hbrow
    rw [if_neg (hlast.not.mpr hne), pushRow_tabulate]
    simp [if_neg hkey]

theorem foldl_putRow_tabulate (rows out : List ResultRow) :
    rows.foldl (putRow columns)
        (tabulate seriesId labels columns temporality out) =
      tabulate seriesId labels columns temporality
        (rows.foldl (replaceLast ResultRow.key) out) := by
  induction rows generalizing out with
  | nil => rfl
  | cons row rest ih =>
    rw [foldl_cons, putRow_tabulate, ih]
    rfl

theorem compactSorted_tabulate :
    (tabulate seriesId labels columns temporality rows).compactSortedSamplesKeepLast columns =
      tabulate seriesId labels columns temporality (keepLast ResultRow.key rows) := by
  rw [compactSortedSamplesKeepLast, compactFrom_tabulate, compactLoop_zero]

end Tabulated

theorem keepLast_eq_keptRows
    (h : (rows.map (·.sample)).Pairwise fun a b => sampleKey a ≤ sampleKey b) :
    keepLast ResultRow.key rows = keptRows rows := by
  rw [pairwise_map] at h
  exact keptRows_eq (keepLast_increasing h) fun k => last?_keepLast k rows

theorem eq_keptRows_of_increasing
    (h : Increasing sampleKey (rows.map (·.sample))) : rows = keptRows rows := by
  rw [Increasing, pairwise_map] at h
  exact keptRows_eq h fun _ => rfl

namespace DeltaReplay
variable (ops : FloatOps)

theorem row_frame (s : DeltaReplay) (row : ResultRow) :
    (s.row ops row).2.key = row.key ∧ (s.row ops row).2.startTime = row.startTime ∧
      (s.row ops row).2.temporality = row.temporality ∧
      (s.row ops row).2.deltaInterval = row.deltaInterval := by
  unfold DeltaReplay.row
  split
  · exact ⟨rfl, rfl, rfl, rfl⟩
  · split <;> exact ⟨rfl, rfl, rfl, rfl⟩

theorem map_rows {α : Type} {field : ResultRow → α}
    (hfield : ∀ (s : DeltaReplay) (row : ResultRow), field (s.row ops row).2 = field row)
    (s : DeltaReplay) (rows : List ResultRow) : (s.rows ops rows).map field = rows.map field := by
  induction rows generalizing s with
  | nil => rfl
  | cons row rest ih =>
    rw [DeltaReplay.rows, map_cons, map_cons, hfield, ih]

theorem rows_of_unmarked (h : ∀ row ∈ rows, row.deltaInterval = none)
    (s : DeltaReplay) : s.rows ops rows = rows := by
  induction rows generalizing s with
  | nil => rfl
  | cons row rest ih =>
    have hrow : (s.row ops row).2 = row := by
      rw [DeltaReplay.row, h row mem_cons_self, ite_self]
    rw [DeltaReplay.rows, hrow, ih fun r hr => h r (mem_cons_of_mem _ hr)]

end DeltaReplay

namespace ResultTable
variable {seriesId : UInt64} {labels : LabelRow} (ops : FloatOps) (T : ResultTable)

def keepLastRows : ResultTable where
  rows := keptRows T.rows
  columns := T.columns
  columns_nil h := T.columns_nil (keptRows_eq_nil h)
  hints h row hrow := T.hints h row (mem_of_mem_keptRows hrow)
  startTimes h row hrow := T.startTimes h row (mem_of_mem_keptRows hrow)
  temporalities h row hrow := T.temporalities h row (mem_of_mem_keptRows hrow)
  deltaIntervals h row hrow := T.deltaIntervals h row (mem_of_mem_keptRows hrow)

theorem forall_mem_replayed {α : Type} {field : ResultRow → α} {x : α}
    (hfield : ∀ (s : DeltaReplay) (row : ResultRow), field (s.row ops row).2 = field row)
    (h : ∀ row ∈ T.rows, field row = x) :
    ∀ row ∈ DeltaReplay.start.rows ops T.rows, field row = x := by
  intro row hrow
  have hmem : field row ∈ (DeltaReplay.start.rows ops T.rows).map field :=
    mem_map_of_mem hrow
  rw [DeltaReplay.map_rows ops hfield] at hmem
  obtain ⟨row', hrow', heq⟩ := mem_map.mp hmem
  rw [← heq, h row' hrow']

def replay : ResultTable where
  rows := DeltaReplay.start.rows ops T.rows
  columns := { T.columns with hints := T.columns.hints || T.columns.deltaIntervals }
  columns_nil h := by
    have hlength := congrArg List.length (DeltaReplay.map_rows ops
      (fun s row => (DeltaReplay.row_frame ops s row).1) DeltaReplay.start T.rows)
    rw [h, List.map_nil, List.length_map] at hlength
    rw [T.columns_nil (List.length_eq_zero_iff.mp hlength.symm)]
    rfl
  hints h := by
    obtain ⟨hhints, hintervals⟩ := Bool.or_eq_false_iff.mp h
    rw [DeltaReplay.rows_of_unmarked ops (T.deltaIntervals hintervals)]
    exact T.hints hhints
  startTimes h := T.forall_mem_replayed ops
    (fun s row => (DeltaReplay.row_frame ops s row).2.1) (T.startTimes h)
  temporalities h := T.forall_mem_replayed ops
    (fun s row => (DeltaReplay.row_frame ops s row).2.2.1) (T.temporalities h)
  deltaIntervals h := T.forall_mem_replayed ops
    (fun s row => (DeltaReplay.row_frame ops s row).2.2.2) (T.deltaIntervals h)

def dedupe : ResultTable := T.keepLastRows.replay ops

theorem sortAndDedupe_toResult :
    (T.toResult seriesId labels).sortAndDedupeSamplesKeepLast T.columns =
      tabulate seriesId labels T.columns T.temporality (keptRows T.rows) := by
  unfold SegmentQueryResult.sortAndDedupeSamplesKeepLast
  split
  · rename_i hnone
    -- no column is there, so that the samples are all of the table
    have hcolumns : T.columns = .none := by
      simp only [Bool.and_eq_true, Bool.not_eq_true'] at hnone
      exact ResultColumns.ext hnone.1.1.1 hnone.1.1.2 hnone.1.2 hnone.2
    have hsorted : { T.toResult seriesId labels with
        samples := (T.toResult seriesId labels).samples.mergeSort
          fun a b => sampleKey a ≤ sampleKey b } =
        tabulate seriesId labels T.columns T.temporality
          (T.rows.mergeSort fun a b => a.key ≤ b.key) := by
      have hsamples : (T.rows.mergeSort fun a b => a.key ≤ b.key).map (·.sample) =
          (T.rows.map (·.sample)).mergeSort fun a b => sampleKey a ≤ sampleKey b :=
        map_mergeSort fun _ _ _ _ => rfl
      rw [toResult, hcolumns]
      exact SegmentQueryResult.ext rfl rfl hsamples.symm rfl rfl rfl rfl rfl rfl rfl
    rw [hsorted, compactSorted_tabulate]
    rfl
  · have hempty : (tabulate seriesId labels T.columns T.temporality T.rows).onColumns T.columns
        (fun _ => []) = tabulate seriesId labels T.columns T.temporality [] :=
      onColumns_tabulate (fun _ _ => rfl) T.rows
    rw [toResult_rows, toResult, hempty, foldl_putRow_tabulate]
    exact congrArg _ (compact_eq_keepLast _)

theorem temporality_replay : (T.replay ops).temporality = T.temporality :=
  congrArg mergeTemporalities (DeltaReplay.map_rows ops
    (fun s row => (DeltaReplay.row_frame ops s row).2.2.1) DeltaReplay.start T.rows)

theorem replay_of_absent (h : T.columns.deltaIntervals = false) : T.replay ops = T := by
  apply ResultTable.ext
  · exact DeltaReplay.rows_of_unmarked ops (T.deltaIntervals h) _
  · refine ResultColumns.ext ?_ rfl rfl rfl
    exact (congrArg (T.columns.hints || ·) h).trans (Bool.or_false _)

def withHints (h : T.rows ≠ []) : ResultTable where
  rows := T.rows
  columns := { T.columns with hints := true }
  columns_nil hnil := absurd hnil h
  hints hfalse := by cases hfalse
  startTimes := T.startTimes
  temporalities := T.temporalities
  deltaIntervals := T.deltaIntervals

theorem withHints_toResult (h : T.rows ≠ []) :
    { T.toResult seriesId labels with
      counterResetHints := ensure .unknown (T.toResult seriesId labels).samples.length
        (T.toResult seriesId labels).counterResetHints } =
      (T.withHints h).toResult seriesId labels := by
  simp only [toResult, tabulate, length_map]
  rw [ensure_column T.hints_nil T.hints]
  rfl

theorem column_replay {α : Type} {field : ResultRow → α} (present : Bool)
    (hfield : ∀ (s : DeltaReplay) (row : ResultRow), field (s.row ops row).2 = field row) :
    column present field T.rows = column present field (T.replay ops).rows := by
  rw [column, column, replay, DeltaReplay.map_rows ops hfield]

theorem materialize_toResult :
    (T.toResult seriesId labels).materializeDeltaProjectionIntervals ops =
      (T.replay ops).toResult seriesId labels := by
  unfold SegmentQueryResult.materializeDeltaProjectionIntervals
  rw [toResult_columns]
  cases h : T.columns.deltaIntervals with
  | false =>
    rw [T.replay_of_absent ops h]
    rfl
  | true =>
    have hne : T.rows ≠ [] := by
      intro hnil
      rw [T.deltaIntervals_nil hnil] at h
      cases h
    have hhints : (T.replay ops).columns.hints = true :=
      (congrArg (T.columns.hints || ·) h).trans (Bool.or_true _)
    have hrows : ((T.withHints hne).toResult seriesId labels).rows = T.rows := toResult_rows _
    rw [if_pos rfl, withHints_toResult T hne]
    simp only [hrows]
    refine SegmentQueryResult.ext rfl rfl rfl ?_ ?_ ?_ ?_ rfl rfl ?_
    · simp only [toResult, tabulate, hhints]
      rfl
    · exact T.column_replay ops _ fun s row => (DeltaReplay.row_frame ops s row).2.1
    · exact T.column_replay ops _ fun s row => (DeltaReplay.row_frame ops s row).2.2.1
    · exact (T.temporality_replay ops).symm
    · exact T.column_replay ops _ fun s row => (DeltaReplay.row_frame ops s row).2.2.2

theorem increasing_of_length_lt_two {samples : List (UInt64 × F64)} (h : samples.length < 2) :
    Increasing sampleKey samples := by
  match samples with
  | [] => exact .nil
  | [a] => exact pairwise_singleton ..
  | a :: b :: rest =>
    rw [length_cons, length_cons] at h
    omega

theorem dropEqualTimestamps_toResult :
    (T.toResult seriesId labels).dropEqualTimestamps T.columns =
      tabulate seriesId labels T.columns T.temporality (keptRows T.rows) := by
  have hsame (h : Increasing sampleKey (T.rows.map (·.sample))) : T.toResult seriesId labels =
      tabulate seriesId labels T.columns T.temporality (keptRows T.rows) :=
    congrArg _ (eq_keptRows_of_increasing h)
  unfold dropEqualTimestamps
  split
  · rw [sampleTimestampOrder]
    cases horder : hasDuplicateOrUnsorted false (T.toResult seriesId labels).samples with
    | none => exact T.sortAndDedupe_toResult
    | some d =>
      obtain ⟨hsorted, hstrict⟩ := hasDuplicateOrUnsorted_some horder
      cases d with
      | false => exact hsame (hstrict rfl).2
      | true =>
        exact (compactSorted_tabulate T.rows).trans (congrArg _ (keepLast_eq_keptRows hsorted))
  · rename_i hshort
    exact hsame (increasing_of_length_lt_two (Nat.not_le.mp hshort))

theorem recompute_tabulate :
    (if T.columns.temporalities then
      (tabulate seriesId labels T.columns T.temporality
        (keptRows T.rows)).recomputeTemporalityFromSamples
      else tabulate seriesId labels T.columns T.temporality (keptRows T.rows)) =
      T.keepLastRows.toResult seriesId labels := by
  cases h : T.columns.temporalities with
  | true =>
    refine SegmentQueryResult.ext rfl rfl rfl rfl rfl rfl ?_ rfl rfl rfl
    simp only [tabulate, h]
    rfl
  | false =>
    have hT : T.temporality = .unknown :=
      mergeTemporalities_unknown (forall_mem_map.mpr (T.temporalities h))
    have hkept : T.keepLastRows.temporality = .unknown :=
      mergeTemporalities_unknown (forall_mem_map.mpr (T.keepLastRows.temporalities h))
    rw [toResult, hkept, hT]
    rfl

theorem dedupe_toResult :
    (T.toResult seriesId labels).dedupeSamplesKeepLast ops =
      (T.dedupe ops).toResult seriesId labels := by
  unfold dedupeSamplesKeepLast
  have hclear : (T.toResult seriesId labels).clearAbsent T.columns = T.toResult seriesId labels :=
    clearAbsent_tabulate T.rows
  rw [toResult_columns]
  simp only [hclear]
  rw [dropEqualTimestamps_toResult, recompute_tabulate, materialize_toResult]
  rfl

end ResultTable

end Chronoxide
