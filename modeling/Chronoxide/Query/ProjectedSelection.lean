import Chronoxide.Query.CandidateSelection

/-! A stored series stands for several names: its own, and those with a projection suffix. Negative
matchers on the metric name are checked against the stored name or against all of the names, so they
can turn away a series that one of the names would pass. -/

namespace Chronoxide
open Codec Fallible SortedSet SelectorPostings HeadSelectorIndex List

def LabelRow.renamed (row : LabelRow) (name : String) : LabelRow :=
  row.map fun label => if label.1 = metricNameLabel then (label.1, name) else label

theorem labelValue_renamed (row : LabelRow) (name label : String) :
    labelValue (LabelRow.renamed row name) label =
      if label = metricNameLabel then (labelValue row label).map fun _ => name
      else labelValue row label := by
  induction row with
  | nil => simp [LabelRow.renamed, labelValue]
  | cons first row ih =>
    unfold labelValue LabelRow.renamed at ih ⊢
    rw [map_cons, KeyedList.lookup_cons_ite, KeyedList.lookup_cons_ite, ih]
    by_cases hfirst : first.1 = metricNameLabel
    · by_cases hlabel : label = metricNameLabel
      · simp [hfirst, hlabel]
      · simp [hfirst, hlabel]
    · by_cases hlabel : label = first.1
      · simp [hlabel, hfirst]
      · simp [hlabel, hfirst]

namespace CompiledLabelMatcher

/-- One of the names that a series stands for satisfies all matchers. -/
def Wanted (compiled : List CompiledLabelMatcher) (row : LabelRow) (base : String) : Prop :=
  ∃ suffix ∈ "" :: promqlProjectionSuffixes, ∀ matcher ∈ compiled,
    matcher.Satisfied (LabelRow.renamed row (base ++ suffix))

/-- A negative matcher on the metric name also passes the stored name, and all projections of it if the
pattern matches the empty text. -/
def KeepsBase (base : String) : CompiledLabelMatcher → Prop
  | .notEq name value => name = metricNameLabel → base ≠ value
  | .notRegex name pattern => name = metricNameLabel → pattern.isMatch base = false ∧
      (pattern.isMatch "" → ∀ suffix ∈ promqlProjectionSuffixes,
        pattern.isMatch (base ++ suffix) = false)
  | .eq .. | .regex .. => True

variable {row : LabelRow} {base suffix : String} {matcher : CompiledLabelMatcher}

theorem accepts_true_iff_of_ne (hname : matcher.name ≠ metricNameLabel) :
    matcher.Accepts true row ↔ matcher.Satisfied row := by
  rw [← accepts_false_iff]
  cases matcher with
  | eq name value => rfl
  | notEq name value => rfl
  | regex name pattern =>
    have hreads : ∀ value, regexReads name pattern true value = regexReads name pattern false value :=
      fun value => by simp [regexReads, show name ≠ metricNameLabel from hname]
    simp [Accepts, matchesValue, hreads]
  | notRegex name pattern =>
    have hreads : ∀ value, regexReads name pattern true value = regexReads name pattern false value :=
      fun value => by simp [regexReads, show name ≠ metricNameLabel from hname]
    simp [Accepts, matchesValue, hreads]

/-- A series that one of its names makes wanted passes the matcher exactly if its stored name does. -/
theorem accepts_true_iff_keepsBase (hbase : labelValue row metricNameLabel = some base)
    (hsuffix : suffix ∈ "" :: promqlProjectionSuffixes)
    (hsatisfied : matcher.Satisfied (LabelRow.renamed row (base ++ suffix)))
    (hnot : ∀ value, matcher ≠ .eq metricNameLabel value) :
    matcher.Accepts true row ↔ matcher.KeepsBase base := by
  have hvalue := labelValue_renamed row (base ++ suffix) matcher.name
  by_cases hname : matcher.name = metricNameLabel
  · rw [if_pos hname, hname, hbase, Option.map_some] at hvalue
    unfold Satisfied at hsatisfied
    rw [hname, hvalue, Option.getD_some] at hsatisfied
    cases matcher with
    | eq name value => exact absurd (congrArg (CompiledLabelMatcher.eq · value) hname) (hnot value)
    | notEq name value =>
      obtain rfl : name = metricNameLabel := hname
      unfold Accepts
      split
      · simp [CompiledLabelMatcher.name, matchesValue, KeepsBase, hbase]
      · simp [KeepsBase, hbase]
    | regex name pattern =>
      obtain rfl : name = metricNameLabel := hname
      have hreads : regexReads metricNameLabel pattern true base = true := by
        have hmatch : pattern.isMatch (base ++ suffix) = true := by
          simpa [matchesValue, regexReads] using hsatisfied
        rcases mem_cons.mp hsuffix with rfl | hsuffix
        · rw [String.append_empty] at hmatch
          simp [regexReads, promqlProjectionMetricNameMatches, hmatch]
        · simp only [regexReads, promqlProjectionMetricNameMatches, Bool.true_and, decide_true,
            if_true, Bool.or_eq_true, any_eq_true]
          exact .inr ⟨suffix, hsuffix, hmatch⟩
      refine iff_of_true ?_ trivial
      unfold Accepts
      split
      · simp [CompiledLabelMatcher.name, matchesValue, hbase, hreads]
      · exact ⟨base, hbase, hreads⟩
    | notRegex name pattern =>
      obtain rfl : name = metricNameLabel := hname
      unfold Accepts
      split
      · rename_i hscan
        have hempty : pattern.isMatch "" = true := hscan
        change (!regexReads metricNameLabel pattern true
          ((labelValue row metricNameLabel).getD "")) = true ↔ _
        rw [hbase, Option.getD_some, Bool.not_eq_true', regexReads_eq_false_iff]
        simp [KeepsBase, hempty]
      · rename_i hscan
        have hempty : ¬pattern.isMatch "" = true := hscan
        simp [KeepsBase, hbase, hempty]
  rw [if_neg hname] at hvalue
  rw [accepts_true_iff_of_ne hname]
  unfold Satisfied at hsatisfied ⊢
  rw [hvalue] at hsatisfied
  refine iff_of_true hsatisfied ?_
  cases matcher with
  | eq name value => trivial
  | notEq name value => exact fun heq => absurd heq hname
  | regex name pattern => trivial
  | notRegex name pattern => exact fun heq => absurd heq hname

end CompiledLabelMatcher

open CompiledLabelMatcher

variable (rowOf : SeriesRef → Option LabelRow)

def LosesNone (compiled : List CompiledLabelMatcher) (refs : List SeriesRef) : Prop :=
  ∀ series row base, rowOf series = some row → labelValue row metricNameLabel = some base →
    Wanted compiled row base → series ∈ refs

/-- The negative matchers on the metric name keep every series with a name that is wanted. -/
def NegativesKeep (compiled : List CompiledLabelMatcher) : Prop :=
  ∀ series row base, rowOf series = some row → labelValue row metricNameLabel = some base →
    Wanted compiled row base → ∀ matcher ∈ compiled, matcher.KeepsBase base

theorem losesNone_iff {rowOf : SeriesRef → Option LabelRow} {compiled : List CompiledLabelMatcher}
    {refs : List SeriesRef} (hnot : ∀ matcher ∈ compiled, ∀ value, matcher ≠ .eq metricNameLabel value)
    (his : Is refs (Stored rowOf fun row => ∀ matcher ∈ compiled, matcher.Accepts true row)) :
    LosesNone rowOf compiled refs ↔ NegativesKeep rowOf compiled := by
  refine forall₅_congr fun series row base hrow hbase => forall_congr' fun hwanted => ?_
  rw [his.mem_iff, stored_iff_of_row hrow]
  obtain ⟨suffix, hsuffix, hsatisfied⟩ := hwanted
  exact forall₂_congr fun matcher hmatcher =>
    accepts_true_iff_keepsBase hbase hsuffix (hsatisfied matcher hmatcher) (hnot matcher hmatcher)

theorem mem_matchers_of_mem_compiled {regexNew : RegexSyntax} {matchers : List NormalizedMatcher}
    {compiled : List CompiledLabelMatcher} (h : List.Forall₂ (Compiles regexNew) matchers compiled)
    {name value : String} (hmem : .eq name value ∈ compiled) : .eq name value ∈ matchers := by
  induction h with
  | nil => cases hmem
  | cons hfirst _ ih =>
    rcases mem_cons.mp hmem with rfl | hmem
    · cases hfirst
      exact mem_cons_self
    · exact mem_cons_of_mem _ (ih hmem)

/-- A selection that reads metric names as their projections loses no series with a name that the
matchers want, exactly if the negative matchers on the metric name keep every such series. -/
theorem projected_selection_loses_none_iff {K : HeadCodecs} (H : LabelHashes) (window : HeadWindow K)
    (labels : List LabelRow) (histories : Nat → LabelHistory) (ops : List CatalogOp)
    {regexNew : RegexSyntax} {matchers : List NormalizedMatcher}
    {compiled : List CompiledLabelMatcher}
    (hcompiled : compileLabelMatchers regexNew matchers = .ok compiled)
    (hnot : ∀ value, .eq metricNameLabel value ∉ matchers) (budget : QueryBudget) :
    Selects ((HeadSelectorIndex.build H.xxhash64 labels window).matchingSeries regexNew matchers
        true) budget (fun refs =>
          let rowOf := HeadSelectorIndex.storedRow (HeadSelectorIndex.rowOf H.xxhash64 labels)
            (window.series.map Prod.fst)
          LosesNone rowOf compiled refs ↔ NegativesKeep rowOf compiled) ∧
      ∀ catalog ∈ (CatalogRun.start.steps H (fun id => (histories id).lineage H) ops).catalogs,
        ∀ present : List SeriesRef, Sorted present →
          (∀ series ∈ present, series ∈ catalog.active.keys) →
          Selects (catalog.matchingSeries present regexNew matchers true) budget fun refs =>
            LosesNone (catalog.presentRow present) compiled refs ↔
              NegativesKeep (catalog.presentRow present) compiled := by
  have hnot' : ∀ matcher ∈ compiled, ∀ value, matcher ≠ .eq metricNameLabel value := by
    rintro _ hmem value rfl
    exact hnot value (mem_matchers_of_mem_compiled (forall₂_compiles hcompiled) hmem)
  refine ⟨Selects.of_returns (matchingSeries_is _ true hcompiled)
    fun refs hrefs => losesNone_iff hnot' (hrefs.congr fun series => ?_),
    fun catalog hcatalog present hsorted hpresent => ?_⟩
  · unfold Stored storedRow
    simp [and_assoc]
  have hreadable := LiveSeriesCatalog.readable_of_run histories ops hcatalog
  refine Selects.of_returns (hreadable.matchingSeries_is hsorted hpresent _ true hcompiled)
    fun refs hrefs => losesNone_iff hnot' (hrefs.congr fun series => ?_)
  rw [LiveSeriesCatalog.Readable.stored_presentRow_iff]

theorem storedRow_jobRow : storedRow (HeadSelectorIndex.rowOf zeroHashes.xxhash64 [jobRow])
    (jobWindow.series.map Prod.fst) ⟨0⟩ = some jobRow :=
  (if_pos (mem_singleton_self _)).trans rowOf_jobRow

/-- `__name__!="down"` keeps the series of `up`. -/
theorem projected_selection_loses_none_down : ∃ refs,
    (((HeadSelectorIndex.build zeroHashes.xxhash64 [jobRow] jobWindow).matchingSeries optionalLetter
      [.notEq metricNameLabel "down"] true).exec QueryBudget.unlimited).1 = .ok refs ∧
      LosesNone (HeadSelectorIndex.storedRow (HeadSelectorIndex.rowOf zeroHashes.xxhash64 [jobRow])
        (jobWindow.series.map Prod.fst)) [.notEq metricNameLabel "down"] refs ∧ ⟨0⟩ ∈ refs := by
  have hcompiled : compileLabelMatchers optionalLetter [.notEq metricNameLabel "down"] =
      .ok [.notEq metricNameLabel "down"] := rfl
  obtain ⟨refs, hrefs, hiff⟩ := (projected_selection_loses_none_iff zeroHashes jobWindow [jobRow]
    (fun _ => ⟨0, 0, fun _ => (⟨none, fun _ => none, none⟩, [])⟩) [] hcompiled (by simp)
    QueryBudget.unlimited).1 fun e _ => QueryLimits.not_tripped_unlimited e
  have hloses := hiff.mpr fun series row base hrow hbase _ matcher hmatcher => ?_
  · refine ⟨refs, hrefs, hloses, hloses ⟨0⟩ jobRow "up" storedRow_jobRow rfl ⟨"", by decide, ?_⟩⟩
    decide
  rw [mem_singleton.mp hmatcher]
  rintro - rfl
  obtain ⟨hseries, hrow⟩ := Option.ite_none_right_eq_some.mp hrow
  rw [mem_singleton.mp hseries] at hrow
  obtain rfl := Option.some.inj (rowOf_jobRow.symm.trans hrow)
  exact absurd hbase (by decide)

theorem jobRow_wanted : Wanted [.notEq metricNameLabel "up"] jobRow "up" := by
  refine ⟨"_count", by decide, fun matcher hmatcher => ?_⟩
  rw [mem_singleton.mp hmatcher]
  unfold Satisfied
  decide

/-- The metric `up` is stored for `up_count` too, and `__name__!="up"` selects nothing. -/
theorem projected_count_lost : ∃ refs,
    (((HeadSelectorIndex.build zeroHashes.xxhash64 [jobRow] jobWindow).matchingSeries optionalLetter
      [.notEq metricNameLabel "up"] true).exec QueryBudget.unlimited).1 = .ok refs ∧
      ¬LosesNone (HeadSelectorIndex.storedRow (HeadSelectorIndex.rowOf zeroHashes.xxhash64 [jobRow])
        (jobWindow.series.map Prod.fst)) [.notEq metricNameLabel "up"] refs := by
  have hcompiled : compileLabelMatchers optionalLetter [.notEq metricNameLabel "up"] =
      .ok [.notEq metricNameLabel "up"] := rfl
  refine Selects.of_returns (matchingSeries_is _ true hcompiled) (fun refs hrefs hloses => ?_)
    fun e _ => QueryLimits.not_tripped_unlimited e
  have hmem := hloses ⟨0⟩ jobRow "up" storedRow_jobRow rfl jobRow_wanted
  obtain ⟨-, row, hrow, haccepts⟩ := (hrefs.mem_iff _).mp hmem
  obtain rfl := Option.some.inj (rowOf_jobRow.symm.trans hrow)
  exact haccepts _ (mem_singleton_self _) rfl

end Chronoxide
