import Mathlib.Data.List.ModifyLast
import Chronoxide.Query.Result

/-! A query result as a table of rows. Every operation on the columns is an operation on the
rows. -/

namespace Chronoxide
open KeepLast Sidecar List

theorem mergeResultTemporality_assoc (a b c : QueryResultTemporality) (n m : Nat) :
    mergeResultTemporality (mergeResultTemporality a n b m) (n + m) c 1 =
      mergeResultTemporality a n (mergeResultTemporality b m c 1) (m + 1) := by
  rcases n with _ | n
  · simp [mergeResultTemporality]
  rcases m with _ | m
  · simp [mergeResultTemporality]
  · simp only [mergeResultTemporality]
    cases a <;> cases b <;> cases c <;> simp

theorem foldl_observeTemporality_snd (state : QueryResultTemporality × Nat)
    (temporalities : List QueryResultTemporality) :
    (temporalities.foldl observeTemporality state).2 = state.2 + temporalities.length := by
  induction temporalities generalizing state with
  | nil => rfl
  | cons t rest ih =>
    rw [foldl_cons, ih, observeTemporality, length_cons]
    omega

theorem mergeTemporalities_concat (temporalities : List QueryResultTemporality)
    (t : QueryResultTemporality) :
    mergeTemporalities (temporalities ++ [t]) =
      mergeResultTemporality (mergeTemporalities temporalities) temporalities.length t 1 := by
  have hcount := foldl_observeTemporality_snd (.unknown, 0) temporalities
  rw [Nat.zero_add] at hcount
  rw [mergeTemporalities, foldl_concat, observeTemporality, hcount]
  rfl

theorem mergeTemporalities_append (left right : List QueryResultTemporality) :
    mergeTemporalities (left ++ right) =
      mergeResultTemporality (mergeTemporalities left) left.length (mergeTemporalities right)
        right.length := by
  induction right using reverseRecOn with
  | nil =>
    cases left with
    | nil => rfl
    | cons t rest => simp [mergeResultTemporality]
  | append_singleton right t ih =>
    rw [← append_assoc, mergeTemporalities_concat, ih, mergeTemporalities_concat,
      length_append, length_append, length_singleton]
    exact mergeResultTemporality_assoc ..

theorem mergeTemporalities_unknown {temporalities : List QueryResultTemporality}
    (h : ∀ t ∈ temporalities, t = .unknown) : mergeTemporalities temporalities = .unknown := by
  induction temporalities using reverseRecOn with
  | nil => rfl
  | append_singleton rest t ih =>
    have hrest := ih fun u hu => h u (mem_append_left _ hu)
    have ht := h t (mem_append_right _ (mem_singleton_self t))
    rw [mergeTemporalities_concat, hrest, ht]
    simp [mergeResultTemporality]

def ResultColumns.none : ResultColumns := ⟨false, false, false, false⟩

def ResultColumns.union (a b : ResultColumns) : ResultColumns where
  hints := a.hints || b.hints
  startTimes := a.startTimes || b.startTimes
  temporalities := a.temporalities || b.temporalities
  deltaIntervals := a.deltaIntervals || b.deltaIntervals

/-- Rows with a choice of columns; what a column that is left out holds is its filler. -/
@[ext]
structure ResultTable where
  rows : List ResultRow
  columns : ResultColumns
  columns_nil : rows = [] → columns = .none
  hints : columns.hints = false → ∀ row ∈ rows, row.hint = .unknown
  startTimes : columns.startTimes = false → ∀ row ∈ rows, row.startTime = none
  temporalities : columns.temporalities = false → ∀ row ∈ rows, row.temporality = .unknown
  deltaIntervals : columns.deltaIntervals = false → ∀ row ∈ rows, row.deltaInterval = none

def tabulate (seriesId : UInt64) (labels : LabelRow) (columns : ResultColumns)
    (temporality : QueryResultTemporality) (rows : List ResultRow) : SegmentQueryResult where
  seriesId := seriesId
  labels := labels
  samples := rows.map (·.sample)
  counterResetHints := Sidecar.column columns.hints (·.hint) rows
  sampleStartTimes := Sidecar.column columns.startTimes (·.startTime) rows
  sampleTemporalities := Sidecar.column columns.temporalities (·.temporality) rows
  temporality := temporality
  labelsComplete := true
  metricNameDroppedSeriesId := none
  deltaProjectionIntervals := Sidecar.column columns.deltaIntervals (·.deltaInterval) rows

theorem filler_append {left right : Bool} {xs ys : List ResultRow} {P : ResultRow → Prop}
    (hleft : left = false → ∀ row ∈ xs, P row) (hright : right = false → ∀ row ∈ ys, P row)
    (h : (left || right) = false) : ∀ row ∈ xs ++ ys, P row := by
  obtain ⟨hl, hr⟩ := Bool.or_eq_false_iff.mp h
  exact forall_mem_append.mpr ⟨hleft hl, hright hr⟩

namespace PushedSample

variable (s : PushedSample)

def row : ResultRow :=
  match s.typed with
  | none => ⟨(s.timestampMs, s.value), .unknown, none, .unknown, s.deltaInterval⟩
  | some (hint, temporality, startTimeMs) =>
    ⟨(s.timestampMs, s.value), hint, if temporality = .delta then startTimeMs else none,
      .ofOtlp temporality, s.deltaInterval⟩

def columns : ResultColumns where
  hints := s.typed.isSome
  startTimes := s.row.startTime.isSome
  temporalities := s.typed.isSome
  deltaIntervals := s.deltaInterval.isSome

theorem row_deltaInterval : s.row.deltaInterval = s.deltaInterval := by
  unfold row
  split <;> rfl

end PushedSample

namespace ResultTable

def temporality (T : ResultTable) : QueryResultTemporality :=
  mergeTemporalities (T.rows.map (·.temporality))

def toResult (seriesId : UInt64) (labels : LabelRow) (T : ResultTable) : SegmentQueryResult :=
  tabulate seriesId labels T.columns T.temporality T.rows

def empty : ResultTable where
  rows := []
  columns := .none
  columns_nil _ := rfl
  hints _ _ h := absurd h List.not_mem_nil
  startTimes _ _ h := absurd h List.not_mem_nil
  temporalities _ _ h := absurd h List.not_mem_nil
  deltaIntervals _ _ h := absurd h List.not_mem_nil

def append (T U : ResultTable) : ResultTable where
  rows := T.rows ++ U.rows
  columns := T.columns.union U.columns
  columns_nil h := by
    obtain ⟨hT, hU⟩ := List.append_eq_nil_iff.mp h
    rw [T.columns_nil hT, U.columns_nil hU]
    rfl
  hints := filler_append T.hints U.hints
  startTimes := filler_append T.startTimes U.startTimes
  temporalities := filler_append T.temporalities U.temporalities
  deltaIntervals := filler_append T.deltaIntervals U.deltaIntervals

def single (s : PushedSample) : ResultTable where
  rows := [s.row]
  columns := s.columns
  columns_nil h := absurd h (List.cons_ne_nil _ _)
  hints h row hrow := by
    have htyped : s.typed = none := Option.eq_none_of_isNone (Option.isSome_eq_false_iff.mp h)
    rw [List.mem_singleton.mp hrow, PushedSample.row, htyped]
  startTimes h row hrow := by
    rw [List.mem_singleton.mp hrow]
    exact Option.eq_none_of_isNone (Option.isSome_eq_false_iff.mp h)
  temporalities h row hrow := by
    have htyped : s.typed = none := Option.eq_none_of_isNone (Option.isSome_eq_false_iff.mp h)
    rw [List.mem_singleton.mp hrow, PushedSample.row, htyped]
  deltaIntervals h row hrow := by
    rw [List.mem_singleton.mp hrow, s.row_deltaInterval]
    exact Option.eq_none_of_isNone (Option.isSome_eq_false_iff.mp h)

variable {seriesId : UInt64} {labels : LabelRow} (T U : ResultTable)

theorem toResult_empty : empty.toResult seriesId labels = .new seriesId labels := rfl

theorem temporality_append :
    (T.append U).temporality =
      mergeResultTemporality T.temporality T.rows.length U.temporality U.rows.length := by
  rw [temporality, append, map_append, mergeTemporalities_append, length_map, length_map]
  rfl

theorem temporality_filler (h : T.columns.temporalities = false) :
    ∀ row ∈ T.rows, row.temporality = T.temporality := by
  have hunknown := mergeTemporalities_unknown (forall_mem_map.mpr (T.temporalities h))
  intro row hrow
  rw [temporality, hunknown, T.temporalities h row hrow]

theorem hints_nil (h : T.rows = []) : T.columns.hints = false := by
  rw [T.columns_nil h]
  rfl

theorem startTimes_nil (h : T.rows = []) : T.columns.startTimes = false := by
  rw [T.columns_nil h]
  rfl

theorem temporalities_nil (h : T.rows = []) : T.columns.temporalities = false := by
  rw [T.columns_nil h]
  rfl

theorem deltaIntervals_nil (h : T.rows = []) : T.columns.deltaIntervals = false := by
  rw [T.columns_nil h]
  rfl

theorem toResult_columns : (T.toResult seriesId labels).columns = T.columns := by
  simp [SegmentQueryResult.columns, toResult, tabulate, has_column T.hints_nil,
    has_column T.startTimes_nil, has_column T.temporalities_nil, has_column T.deltaIntervals_nil]

theorem toResult_rows : (T.toResult seriesId labels).rows = T.rows := by
  apply ext_getElem?
  intro i
  simp only [SegmentQueryResult.rows, toResult, tabulate, getElem?_map,
    getElem?_zipIdx, Option.map_map]
  cases hrow : T.rows[i]? with
  | none => rfl
  | some row =>
    have hmem : row ∈ T.rows := mem_of_getElem? hrow
    simp only [Option.map_some, Function.comp_apply, Nat.zero_add]
    rw [getD_column hrow fun h => T.hints h row hmem,
      getD_column hrow fun h => T.startTimes h row hmem,
      getD_column hrow fun h => T.temporalities h row hmem,
      getD_column hrow fun h => T.deltaIntervals h row hmem]

theorem extendFrom_toResult :
    (T.toResult seriesId labels).extendFrom (U.toResult seriesId labels) =
      (T.append U).toResult seriesId labels := by
  simp only [SegmentQueryResult.extendFrom, toResult, tabulate, length_map, temporality_append]
  rw [extend_column T.hints_nil U.hints_nil T.hints U.hints,
    extend_column T.startTimes_nil U.startTimes_nil T.startTimes U.startTimes,
    extend_column T.temporalities_nil U.temporalities_nil T.temporality_filler U.temporality_filler,
    extend_column T.deltaIntervals_nil U.deltaIntervals_nil T.deltaIntervals U.deltaIntervals,
    ← map_append]
  rfl

theorem pushSample_toResult (timestampMs : UInt64) (value : F64) :
    (T.toResult seriesId labels).pushSample timestampMs value =
      (T.append (single ⟨timestampMs, value, none, none⟩)).toResult seriesId labels := by
  let row : ResultRow := ⟨(timestampMs, value), .unknown, none, .unknown, none⟩
  have htemporality : (if T.columns.temporalities then
      mergeResultTemporality T.temporality T.rows.length .unknown 1 else T.temporality) =
      (T.append (single ⟨timestampMs, value, none, none⟩)).temporality := by
    rw [temporality_append]
    cases h : T.columns.temporalities with
    | true => rfl
    | false =>
      have hunknown : T.temporality = .unknown :=
        mergeTemporalities_unknown (forall_mem_map.mpr (T.temporalities h))
      rw [hunknown]
      simp [mergeResultTemporality, temporality, single, PushedSample.row, mergeTemporalities,
        observeTemporality]
  simp only [SegmentQueryResult.pushSample, toResult, tabulate, length_map,
    has_column T.temporalities_nil, htemporality]
  have hhint : row.hint = .unknown := rfl
  have hstart : row.startTime = none := rfl
  have hunknown : row.temporality = .unknown := rfl
  have hinterval : row.deltaInterval = none := rfl
  rw [pushIfPresent_column T.hints_nil hhint, pushIfPresent_column T.startTimes_nil hstart,
    pushIfPresent_column T.temporalities_nil hunknown,
    pushIfPresent_column T.deltaIntervals_nil hinterval]
  simp [append, single, PushedSample.row, PushedSample.columns, ResultColumns.union, row]

theorem pushTyped_toResult (timestampMs : UInt64) (value : F64) (hint : CounterResetHint)
    (temporality : OtlpAggregationTemporality) (startTimeMs : Option UInt64) :
    (T.toResult seriesId labels).pushSampleWithCounterResetHintTemporalityAndStartTime timestampMs
        value hint temporality startTimeMs =
      (T.append (single ⟨timestampMs, value, some (hint, temporality, startTimeMs), none⟩)).toResult
        seriesId labels := by
  let row : ResultRow := ⟨(timestampMs, value), hint,
    if temporality = .delta then startTimeMs else none, .ofOtlp temporality, none⟩
  have hstart : (if row.startTime.isSome then
      ensure none T.rows.length
        (column T.columns.startTimes (·.startTime) T.rows) ++ [row.startTime]
      else pushIfPresent row.startTime T.rows.length
        (column T.columns.startTimes (·.startTime) T.rows)) =
      column (T.columns.startTimes || row.startTime.isSome) (·.startTime)
        (T.rows ++ [row]) := by
    cases row.startTime.isSome with
    | true =>
      rw [ensure_column T.startTimes_nil T.startTimes, Bool.or_true, if_pos rfl, column_concat]
    | false =>
      rw [Bool.or_false]
      exact pushIfPresent_column T.startTimes_nil rfl
  have hinterval : row.deltaInterval = none := rfl
  simp only [SegmentQueryResult.pushSampleWithCounterResetHintTemporalityAndStartTime, toResult,
    tabulate, length_map, temporality_append]
  rw [ensure_column T.hints_nil T.hints, ensure_column T.temporalities_nil T.temporality_filler,
    pushIfPresent_column T.deltaIntervals_nil hinterval]
  refine SegmentQueryResult.ext rfl rfl ?_ ?_ hstart ?_ rfl rfl rfl ?_
  · simp [append, single, PushedSample.row]
  · simp [append, single, PushedSample.row, PushedSample.columns, ResultColumns.union, column]
  · simp [append, single, PushedSample.row, PushedSample.columns, ResultColumns.union, column]
  · simp [append, single, PushedSample.row, PushedSample.columns, ResultColumns.union, row]

theorem markLast_toResult (s : PushedSample) (interval : DeltaProjectionInterval) :
    ((T.append (single { s with deltaInterval := none })).toResult seriesId
        labels).markLastDeltaProjectionInterval interval =
      (T.append (single { s with deltaInterval := some interval })).toResult seriesId labels := by
  let unmarked : PushedSample := { s with deltaInterval := none }
  let marked : PushedSample := { s with deltaInterval := some interval }
  have hfield {α : Type} (field : ResultRow → α) (h : field unmarked.row = field marked.row) :
      (T.append (single unmarked)).rows.map field = (T.append (single marked)).rows.map field := by
    simp [append, single, h]
  have hrow : marked.row = { unmarked.row with deltaInterval := some interval } := by
    simp only [PushedSample.row, marked, unmarked]
    split <;> rfl
  have hcolumns : (T.append (single marked)).columns =
      { (T.append (single unmarked)).columns with deltaIntervals := true } := by
    simp [append, single, ResultColumns.union, PushedSample.columns, hrow, marked, unmarked]
  have hcolumn {α : Type} {present present' : Bool} (field : ResultRow → α)
      (hpresent : present' = present) (h : field unmarked.row = field marked.row) :
      column present field (T.append (single unmarked)).rows =
        column present' field (T.append (single marked)).rows := by
    rw [column, column, hfield field h, hpresent]
  refine SegmentQueryResult.ext rfl rfl ?_ ?_ ?_ ?_ ?_ rfl rfl ?_
  · exact hfield (·.sample) (by rw [hrow])
  · exact hcolumn (·.hint) (congrArg (·.hints) hcolumns) (by rw [hrow])
  · exact hcolumn (·.startTime) (congrArg (·.startTimes) hcolumns) (by rw [hrow])
  · exact hcolumn (·.temporality) (congrArg (·.temporalities) hcolumns) (by rw [hrow])
  · exact congrArg mergeTemporalities (hfield (·.temporality) (by rw [hrow]))
  have hpresent : (T.append (single marked)).columns.deltaIntervals = true :=
    congrArg (·.deltaIntervals) hcolumns
  have hensure := ensure_column (T.append (single unmarked)).deltaIntervals_nil
    (T.append (single unmarked)).deltaIntervals
  have hmarked : (T.append (single marked)).rows.map (·.deltaInterval) =
      T.rows.map (·.deltaInterval) ++ [some interval] := by
    rw [append, map_append, single, map_singleton, hrow]
  have hunmarked : (T.append (single unmarked)).rows.map (·.deltaInterval) =
      T.rows.map (·.deltaInterval) ++ [unmarked.row.deltaInterval] := map_append
  simp only [SegmentQueryResult.markLastDeltaProjectionInterval, toResult, tabulate, length_map]
  rw [hensure, hunmarked, modifyLast_concat, hpresent, ← hmarked]
  rfl

theorem push_toResult (s : PushedSample) :
    (T.toResult seriesId labels).push s = (T.append (single s)).toResult seriesId labels := by
  obtain ⟨timestampMs, value, typed, deltaInterval⟩ := s
  have hunmarked : (match typed with
      | none => (T.toResult seriesId labels).pushSample timestampMs value
      | some (hint, temporality, startTimeMs) =>
        (T.toResult seriesId labels).pushSampleWithCounterResetHintTemporalityAndStartTime
          timestampMs value hint temporality startTimeMs) =
      (T.append (single ⟨timestampMs, value, typed, none⟩)).toResult seriesId labels := by
    cases typed with
    | none => exact T.pushSample_toResult timestampMs value
    | some typed => exact T.pushTyped_toResult timestampMs value typed.1 typed.2.1 typed.2.2
  cases deltaInterval with
  | none => exact hunmarked
  | some interval =>
    exact (congrArg _ hunmarked).trans
      (T.markLast_toResult ⟨timestampMs, value, typed, none⟩ interval)

end ResultTable

end Chronoxide
