import Chronoxide.Head.FragmentKey
import Chronoxide.Query.Selection
import Chronoxide.Segment.SeriesLabels

/-! The selector index of a head window (`head/window.rs`): the canonical rows of its series and the
inverse of them, and the selection of series through it. -/

namespace Chronoxide
open List hiding dedup
open Fallible SortedSet

namespace HeadSelectorIndex

def pairLt (a b : String × String) : Bool := a.1 < b.1 || (a.1 = b.1 && a.2 < b.2)

def empty : HeadSelectorIndex := ⟨[], [], [], []⟩

def exactPostings (index : HeadSelectorIndex) (name value : String) : List SeriesRef :=
  (index.postings.lookup (name, value)).getD []

def valuesOf (index : HeadSelectorIndex) (name : String) : List String :=
  (index.labelValues.lookup name).getD []

def indexLabel (seriesRef : SeriesRef) (index : HeadSelectorIndex) (label : String × String) :
    HeadSelectorIndex :=
  { index with
    postings := KeyedList.upsertBy pairLt label
      (index.exactPostings label.1 label.2 ++ [seriesRef]) index.postings
    labelValues := KeyedList.upsertBy (fun a b => a < b) label.1
      (unionSorted (index.valuesOf label.1) [label.2]) index.labelValues }

section
variable (xxhash64 : List UInt8 → UInt64) (labels : List LabelRow)

def indexSeries (index : HeadSelectorIndex) (seriesRef : SeriesRef) : HeadSelectorIndex :=
  match canonicalHeadLabelset xxhash64 labels seriesRef with
  | none => index
  | some (seriesId, canonicalLabels) =>
    let index := canonicalLabels.foldl (indexLabel seriesRef) index
    { index with
      allSeries := index.allSeries ++ [seriesRef]
      series := KeyedList.upsertBy (fun a b => a < b) seriesRef ⟨seriesId, canonicalLabels⟩
        index.series }

def buildFromSeriesRefs (seriesRefs : List SeriesRef) : HeadSelectorIndex :=
  (dedup (seriesRefs.mergeSort (· ≤ ·))).foldl (indexSeries xxhash64 labels) empty

def build {K : HeadCodecs} (window : HeadWindow K) : HeadSelectorIndex :=
  buildFromSeriesRefs xxhash64 labels (window.series.map Prod.fst)

end

section
variable (index : HeadSelectorIndex) (regexNew : RegexSyntax)

def regexPostings (name pattern : String) (matchProjectionNames : Bool) :
    Charged (List SeriesRef) := do
  let regex ← MonadExcept.ofExcept ((compilePromqlRegex regexNew pattern).mapError invalidInput)
  (index.valuesOf name).foldlM (fun out value => do
    QueryBudget.observeRegexValue
    let isMatch := if matchProjectionNames then promqlProjectionMetricNameMatches value regex
      else regex.isMatch value
    pure (if isMatch then unionSorted out (index.exactPostings name value) else out)) []

def retains (compiled : List CompiledLabelMatcher) (matchProjectionNames : Bool)
    (seriesRef : SeriesRef) : Bool :=
  match index.series.lookup seriesRef with
  | none => false
  | some indexed => (compiled.filter (·.requiresMissingLabelScan)).all fun matcher =>
    matcher.matchesValue ((labelValue indexed.labels matcher.name).getD "") matchProjectionNames

def selectorPostings : SelectorPostings SeriesRef where
  all := index.allSeries
  exactPostings name value := pure (index.exactPostings name value)
  regexPostings := index.regexPostings regexNew
  chargeRegexValues name := (index.valuesOf name).forM fun _ => QueryBudget.observeRegexValue
  exclude candidates posting :=
    if posting.isEmpty then candidates else subtractSorted candidates posting
  retains compiled matchProjectionNames seriesRef :=
    pure (index.retains compiled matchProjectionNames seriesRef)

def matchingSeries (matchers : List NormalizedMatcher) (matchProjectionNames : Bool) :
    Charged (List SeriesRef) :=
  (index.selectorPostings regexNew).matchingSeries matchProjectionNames regexNew matchers

end

section IndexLabels
variable {index : HeadSelectorIndex} {seriesRef : SeriesRef}

theorem exactPostings_indexLabel (label : String × String) (name value : String) :
    (indexLabel seriesRef index label).exactPostings name value =
      if (name, value) = label then index.exactPostings name value ++ [seriesRef]
      else index.exactPostings name value := by
  unfold indexLabel exactPostings
  rw [KeyedList.lookup_upsertBy]
  split
  · rename_i heq
    subst heq
    rfl
  · rfl

theorem mem_valuesOf_indexLabel (label : String × String) (name value : String) :
    value ∈ (indexLabel seriesRef index label).valuesOf name ↔
      value ∈ index.valuesOf name ∨ (name, value) = label := by
  unfold indexLabel valuesOf
  rw [KeyedList.lookup_upsertBy]
  by_cases hname : name = label.1
  · subst hname
    rw [if_pos rfl, Option.getD_some, mem_unionSorted, mem_singleton, Prod.ext_iff]
    exact or_congr_right (and_iff_right rfl).symm
  · rw [if_neg hname]
    exact (or_iff_left fun h => hname (congrArg Prod.fst h)).symm

theorem exactPostings_foldl_indexLabel {row : LabelRow} (hrow : row.Nodup) (name value : String) :
    (row.foldl (indexLabel seriesRef) index).exactPostings name value =
      index.exactPostings name value ++ if (name, value) ∈ row then [seriesRef] else [] := by
  induction row generalizing index with
  | nil => simp
  | cons label row ih =>
    obtain ⟨hlabel, hrow⟩ := nodup_cons.mp hrow
    rw [foldl_cons, ih hrow, exactPostings_indexLabel]
    by_cases heq : (name, value) = label
    · rw [← heq] at hlabel ⊢
      rw [if_pos rfl, if_neg hlabel, if_pos (mem_cons_self ..), append_nil]
    · rw [if_neg heq]
      simp [heq]

theorem mem_valuesOf_foldl_indexLabel (row : LabelRow) (name value : String) :
    value ∈ (row.foldl (indexLabel seriesRef) index).valuesOf name ↔
      value ∈ index.valuesOf name ∨ (name, value) ∈ row := by
  induction row generalizing index with
  | nil => simp
  | cons label row ih =>
    rw [foldl_cons, ih, mem_valuesOf_indexLabel, mem_cons, or_assoc]

theorem allSeries_foldl_indexLabel (row : LabelRow) :
    (row.foldl (indexLabel seriesRef) index).allSeries = index.allSeries := by
  induction row generalizing index with
  | nil => rfl
  | cons label row ih => exact ih

theorem series_foldl_indexLabel (row : LabelRow) :
    (row.foldl (indexLabel seriesRef) index).series = index.series := by
  induction row generalizing index with
  | nil => rfl
  | cons label row ih => exact ih

end IndexLabels

def rowOf (xxhash64 : List UInt8 → UInt64) (labels : List LabelRow) (seriesRef : SeriesRef) :
    Option LabelRow :=
  (canonicalHeadLabelset xxhash64 labels seriesRef).map Prod.snd

theorem rowOf_increasing {xxhash64 : List UInt8 → UInt64} {labels : List LabelRow}
    {seriesRef : SeriesRef} {row : LabelRow} (h : rowOf xxhash64 labels seriesRef = some row) :
    KeepLast.Increasing Prod.fst row := by
  obtain ⟨⟨seriesId, canonical⟩, hcanonical, rfl⟩ := Option.map_eq_some_iff.mp h
  unfold canonicalHeadLabelset at hcanonical
  split at hcanonical
  · cases hcanonical
  · cases hcanonical
    exact OrderedMap.toList_increasing _

def rowHas (rowOf : SeriesRef → Option LabelRow) (p : LabelRow → Bool) (seriesRef : SeriesRef) :
    Bool := (rowOf seriesRef).any p

structure Indexes (rowOf : SeriesRef → Option LabelRow) (done : List SeriesRef)
    (index : HeadSelectorIndex) : Prop where
  allSeries : index.allSeries = done.filter (rowHas rowOf fun _ => true)
  series : ∀ seriesRef ∈ done, ∀ row, rowOf seriesRef = some row →
    (index.series.lookup seriesRef).map (·.labels) = some row
  postings : ∀ name value, index.exactPostings name value =
    done.filter (rowHas rowOf fun row => labelValue row name = some value)
  values : ∀ name value, value ∈ index.valuesOf name ↔
    ∃ seriesRef ∈ done, rowHas rowOf (fun row => labelValue row name = some value) seriesRef

section Build
variable {xxhash64 : List UInt8 → UInt64} {labels : List LabelRow} {index : HeadSelectorIndex}
  {done : List SeriesRef}

theorem indexes_empty (rowOf : SeriesRef → Option LabelRow) : Indexes rowOf [] empty where
  allSeries := rfl
  series := fun _ h => absurd h not_mem_nil
  postings := fun _ _ => rfl
  values := fun _ _ => by simp [empty, valuesOf]

theorem Indexes.step (h : Indexes (rowOf xxhash64 labels) done index) (seriesRef : SeriesRef) :
    Indexes (rowOf xxhash64 labels) (done ++ [seriesRef])
      (indexSeries xxhash64 labels index seriesRef) := by
  unfold indexSeries
  rcases hcanonical : canonicalHeadLabelset xxhash64 labels seriesRef with _ | ⟨seriesId, row⟩
  · have hrow : rowOf xxhash64 labels seriesRef = none := by rw [rowOf, hcanonical]; rfl
    have hhas : ∀ p, rowHas (rowOf xxhash64 labels) p seriesRef = false := by
      intro p
      rw [rowHas, hrow]
      rfl
    refine ⟨?_, forall_mem_append.mpr
      ⟨h.series, forall_mem_singleton.mpr fun row' hrow' => ?_⟩, fun name value => ?_,
      fun name value => ?_⟩
    · simp only [h.allSeries, filter_append, filter_singleton, hhas, cond_false,
        append_nil]
    · rw [hrow] at hrow'
      cases hrow'
    · simp only [h.postings, filter_append, filter_singleton, hhas, cond_false,
        append_nil]
    · rw [h.values]
      simp only [exists_mem_concat, hhas, Bool.false_eq_true, or_false]
  have hrow : rowOf xxhash64 labels seriesRef = some row := by rw [rowOf, hcanonical]; rfl
  have hhas : ∀ p, rowHas (rowOf xxhash64 labels) p seriesRef = p row := by
    intro p
    rw [rowHas, hrow]
    rfl
  have hincreasing := rowOf_increasing hrow
  have hnodup : row.Nodup := hincreasing.imp fun hlt heq => hlt.ne (congrArg Prod.fst heq)
  dsimp only
  refine ⟨?_, fun other hother row' hrow' => ?_, fun name value => ?_, fun name value => ?_⟩
  · rw [allSeries_foldl_indexLabel, h.allSeries, filter_append, filter_singleton, hhas]
    rfl
  · rw [KeyedList.lookup_upsertBy, series_foldl_indexLabel]
    by_cases heq : other = seriesRef
    · rw [if_pos heq]
      rw [heq, hrow] at hrow'
      exact hrow'
    · rw [if_neg heq]
      exact h.series other ((mem_append.mp hother).resolve_right (by simpa using heq)) row' hrow'
  · change (row.foldl (indexLabel seriesRef) index).exactPostings name value = _
    rw [exactPostings_foldl_indexLabel hnodup, h.postings, filter_append,
      filter_singleton, hhas]
    simp only [← labelValue_eq_some_iff hincreasing, Bool.cond_decide]
  · change value ∈ (row.foldl (indexLabel seriesRef) index).valuesOf name ↔ _
    rw [mem_valuesOf_foldl_indexLabel, h.values]
    simp only [exists_mem_concat, hhas, ← labelValue_eq_some_iff hincreasing, decide_eq_true_eq]

theorem Indexes.run (seriesRefs : List SeriesRef) (h : Indexes (rowOf xxhash64 labels) done index) :
    Indexes (rowOf xxhash64 labels) (done ++ seriesRefs)
      (seriesRefs.foldl (indexSeries xxhash64 labels) index) := by
  induction seriesRefs generalizing done index with
  | nil => rwa [append_nil]
  | cons seriesRef seriesRefs ih =>
    rw [append_cons]
    exact ih (h.step seriesRef)

theorem indexes_buildFromSeriesRefs (seriesRefs : List SeriesRef) :
    Indexes (rowOf xxhash64 labels) (dedup (seriesRefs.mergeSort (· ≤ ·)))
      (buildFromSeriesRefs xxhash64 labels seriesRefs) :=
  (indexes_empty _).run _

end Build

section Select
variable {rowOf : SeriesRef → Option LabelRow} {done : List SeriesRef} {index : HeadSelectorIndex}
  {limits : QueryLimits} {regexNew : RegexSyntax}

open SelectorPostings

def storedRow (rowOf : SeriesRef → Option LabelRow) (done : List SeriesRef)
    (seriesRef : SeriesRef) : Option LabelRow :=
  if seriesRef ∈ done then rowOf seriesRef else none

theorem is_filter_rowHas (hdone : Sorted done) (p : LabelRow → Bool) :
    Is (done.filter (rowHas rowOf p)) (Stored (storedRow rowOf done) fun row => p row) := by
  refine ⟨hdone.filter _, fun seriesRef => ?_⟩
  unfold Stored storedRow
  rw [mem_filter, rowHas, Option.any_eq_true]
  by_cases hmem : seriesRef ∈ done
  · rw [if_pos hmem, and_iff_right hmem]
  · simp [hmem]

theorem Indexes.exactPostings_is (h : Indexes rowOf done index) (hdone : Sorted done)
    (name value : String) : Is (index.exactPostings name value)
      (Stored (storedRow rowOf done) fun row => labelValue row name = some value) := by
  rw [h.postings]
  exact is_congr (is_filter_rowHas hdone _) fun _ => decide_eq_true_iff

theorem Indexes.mem_valuesOf (h : Indexes rowOf done index) (hdone : Sorted done)
    {seriesRef : SeriesRef} {row : LabelRow} {name value : String}
    (hrow : storedRow rowOf done seriesRef = some row) (hvalue : labelValue row name = some value) :
    value ∈ index.valuesOf name := by
  have hmem := (is_filter_rowHas hdone fun row => labelValue row name = some value).mem_iff
    seriesRef |>.mpr ⟨row, hrow, decide_eq_true hvalue⟩
  exact (h.values name value).mpr ⟨seriesRef, mem_filter.mp hmem⟩

theorem Indexes.faithful (h : Indexes rowOf done index) (hdone : Sorted done) :
    (index.selectorPostings regexNew).Faithful regexNew limits (storedRow rowOf done) where
  all := by
    change Is index.allSeries _
    rw [h.allSeries]
    exact is_congr (is_filter_rowHas hdone _) fun _ => by simp
  exactPostings name value := Returns.ret (h.exactPostings_is hdone name value)
  regexPostings name pattern regex projected hregex := by
    change Returns limits (index.regexPostings regexNew name pattern projected) _
    unfold HeadSelectorIndex.regexPostings
    rw [hregex]
    refine Returns.seq (Q := (· = regex)) (Returns.ret rfl) fun _ heq => ?_
    rw [heq]
    exact valueLoop_returns _ (fun value _ => h.exactPostings_is hdone name value)
      fun _ _ value hrow hvalue => ⟨value, h.mem_valuesOf hdone hrow hvalue, rfl⟩
  chargeRegexValues name := Returns.forM fun _ _ => Returns.observeRegexValue
  exclude candidates posting P Q hcandidates hposting := by
    change Is (if posting.isEmpty then _ else _) _
    split
    · rename_i hempty
      exact hcandidates.congr fun series =>
        (and_iff_left (hposting.not_of_isEmpty hempty series)).symm
    · exact hcandidates.subtract hposting
  retains compiled projected seriesRef row hrow := by
    refine Returns.ret ?_
    unfold storedRow at hrow
    split at hrow
    · rename_i hmem
      have hlookup := h.series seriesRef hmem row hrow
      obtain ⟨indexed, hindexed, rfl⟩ := Option.map_eq_some_iff.mp hlookup
      unfold HeadSelectorIndex.retains
      rw [hindexed]
      simp only [all_eq_true, mem_filter, and_imp]
    · cases hrow

theorem matchingSeries_is {xxhash64 : List UInt8 → UInt64} {labels : List LabelRow}
    {matchers : List NormalizedMatcher} {compiled : List CompiledLabelMatcher}
    (seriesRefs : List SeriesRef) (matchProjectionNames : Bool)
    (hcompiled : compileLabelMatchers regexNew matchers = .ok compiled) :
    Returns limits ((buildFromSeriesRefs xxhash64 labels seriesRefs).matchingSeries regexNew matchers
      matchProjectionNames) fun refs =>
      Is refs fun seriesRef => seriesRef ∈ seriesRefs ∧
        Stored (HeadSelectorIndex.rowOf xxhash64 labels)
          (fun row => ∀ matcher ∈ compiled, matcher.Accepts matchProjectionNames row) seriesRef := by
  have hindexes : Indexes (HeadSelectorIndex.rowOf xxhash64 labels) _ _ :=
    indexes_buildFromSeriesRefs seriesRefs
  have hfaithful : SelectorPostings.Faithful _ regexNew limits _ :=
    hindexes.faithful (sorted_dedup_mergeSort seriesRefs)
  refine (matchingSeries_returns hfaithful hcompiled).mono fun refs hrefs =>
    hrefs.congr fun seriesRef => ?_
  unfold Stored storedRow
  simp [mem_dedup_mergeSort, and_assoc]

end Select

end HeadSelectorIndex

end Chronoxide
