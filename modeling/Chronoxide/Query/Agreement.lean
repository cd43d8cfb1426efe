import Chronoxide.Head.SelectorIndex
import Chronoxide.Segment.Facade

/-! Selection in a head window against selection in a sealed segment with the same rows. The sealed
side bounds its walks by literal prefixes and reads a negative regex on the metric name under every
projection; the head side does neither. -/

namespace Chronoxide
open Fallible SortedSet SelectorPostings List

namespace CompiledLabelMatcher

/-- Where the two sides could part. A regex that needs its label must have a literal prefix that
begins the value, and a negative regex on the metric name must not match a projection of it. -/
def SealedSees (matchProjectionNames : Bool) (row : LabelRow) : CompiledLabelMatcher → Prop
  | .regex name pattern => pattern.isMatch "" = false → ∀ value, labelValue row name = some value →
      SegmentMetadata.Reached matchProjectionNames (.regex name pattern) value
  | .notRegex name pattern => pattern.isMatch "" = false → matchProjectionNames = true →
      name = metricNameLabel → ∀ suffix ∈ promqlProjectionSuffixes,
        pattern.isMatch ((labelValue row name).getD "" ++ suffix) = false
  | .eq .. | .notEq .. => True

theorem getD_eq_iff {found : Option String} {value : String} (hvalue : value ≠ "") :
    found.getD "" = value ↔ found = some value := by
  cases found with
  | none => exact iff_of_false (fun h => hvalue h.symm) nofun
  | some found => exact Option.some_inj.symm

theorem isMatch_getD_iff {pattern : Regex} (hscan : pattern.isMatch "" = false)
    (found : Option String) :
    pattern.isMatch (found.getD "") = false ↔
      ∀ value, found = some value → ¬pattern.isMatch value = true := by
  cases found with
  | none => exact iff_of_true hscan nofun
  | some found => simp

theorem regexReads_eq_false_iff (name : String) (pattern : Regex) (matchProjectionNames : Bool)
    (value : String) :
    regexReads name pattern matchProjectionNames value = false ↔
      pattern.isMatch value = false ∧ (matchProjectionNames = true → name = metricNameLabel →
        ∀ suffix ∈ promqlProjectionSuffixes, pattern.isMatch (value ++ suffix) = false) := by
  unfold regexReads promqlProjectionMetricNameMatches
  by_cases hname : name = metricNameLabel
  · cases matchProjectionNames <;> simp [hname]
  · cases matchProjectionNames <;> simp [hname]

theorem acceptsSealed_iff (matchProjectionNames : Bool) (row : LabelRow)
    (matcher : CompiledLabelMatcher) :
    SegmentMetadata.AcceptsSealed matchProjectionNames row matcher ↔
      matcher.Accepts matchProjectionNames row ∧ matcher.SealedSees matchProjectionNames row := by
  unfold SegmentMetadata.AcceptsSealed Accepts
  cases hscan : matcher.requiresMissingLabelScan with
  | true =>
    refine and_congr_right fun _ => ?_
    -- Neither side reads a posting for such a matcher.
    cases matcher with
    | eq | notEq => exact Iff.rfl
    | regex name pattern =>
      have hnot : ¬pattern.isMatch "" = false := by rw [Bool.not_eq_false]; exact hscan
      exact iff_of_true (fun h => absurd h hnot) fun h => absurd h hnot
    | notRegex name pattern =>
      have hnot : ¬pattern.isMatch "" = false := by rw [Bool.not_eq_false]; exact hscan
      exact iff_of_true trivial fun h => absurd h hnot
  | false =>
    rw [if_neg Bool.false_ne_true]
    cases matcher with
    | eq name value =>
      have hvalue : value ≠ "" := fun h => by
        rw [h] at hscan
        cases hscan
      rw [matchesValue, decide_eq_true_iff, getD_eq_iff hvalue]
      exact Iff.rfl
    | notEq name value =>
      have hvalue : value ≠ "" := fun h => by
        rw [h] at hscan
        cases hscan
      rw [matchesValue, decide_eq_true_iff, ne_eq, getD_eq_iff hvalue]
      exact Iff.rfl
    | regex name pattern =>
      have hscan : pattern.isMatch "" = false := hscan
      simp only [matchesValue, SealedSees, hscan, true_imp_iff, CompiledLabelMatcher.name]
      rcases labelValue row name with _ | found <;> simp
    | notRegex name pattern =>
      have hscan : pattern.isMatch "" = false := hscan
      simp [matchesValue, SealedSees, hscan, CompiledLabelMatcher.name, regexReads_eq_false_iff,
        isMatch_getD_iff hscan]

end CompiledLabelMatcher

def SelectionsAgree {ρ τ : Type} (headRow : ρ → Option LabelRow) (sealedRow : τ → Option LabelRow) :
    Except IoError (List ρ) → Except IoError (List τ) → Prop
  | .ok headRefs, .ok sealedRefs => ∀ row,
      (∃ seriesRef ∈ headRefs, headRow seriesRef = some row) ↔
        ∃ seriesRef ∈ sealedRefs, sealedRow seriesRef = some row
  | .error e, .error e' => e = e'
  | _, _ => False

section Agree
variable {xxhash64 : List UInt8 → UInt64} {labels : List LabelRow} {seriesRefs : List SeriesRef}
  {metadata : SegmentMetadata} {regexNew : RegexSyntax} {matchers : List NormalizedMatcher}
  {compiled : List CompiledLabelMatcher} {matchProjectionNames : Bool} {limits : QueryLimits}

open HeadSelectorIndex in
theorem head_matchingSeries_returns (xxhash64 : List UInt8 → UInt64) (labels : List LabelRow)
    (seriesRefs : List SeriesRef) (matchProjectionNames : Bool)
    (hcompiled : compileLabelMatchers regexNew matchers = .ok compiled) :
    Returns limits ((buildFromSeriesRefs xxhash64 labels seriesRefs).matchingSeries
      regexNew matchers matchProjectionNames) fun refs =>
      ∀ row, (∃ seriesRef ∈ refs, rowOf xxhash64 labels seriesRef = some row) ↔
        (∃ seriesRef ∈ seriesRefs, rowOf xxhash64 labels seriesRef = some row) ∧
          ∀ matcher ∈ compiled, matcher.Accepts matchProjectionNames row := by
  refine (matchingSeries_is seriesRefs matchProjectionNames hcompiled).mono fun refs hrefs row => ?_
  constructor
  · rintro ⟨seriesRef, hmem, hrow⟩
    obtain ⟨hseries, hstored⟩ := (hrefs.mem_iff seriesRef).mp hmem
    exact ⟨⟨seriesRef, hseries, hrow⟩, (stored_iff_of_row hrow).mp hstored⟩
  · rintro ⟨⟨seriesRef, hseries, hrow⟩, haccepts⟩
    exact ⟨seriesRef, (hrefs.mem_iff seriesRef).mpr ⟨hseries, row, hrow, haccepts⟩, hrow⟩

theorem sealed_selectedRefs_returns (hstores : metadata.Stores) (matchProjectionNames : Bool)
    (hcompiled : compileLabelMatchers regexNew matchers = .ok compiled) :
    Returns limits (metadata.selectedRefs matchProjectionNames regexNew matchers) fun refs =>
      ∀ row, (∃ seriesRef ∈ refs, metadata.rowOf seriesRef = some row) ↔
        row ∈ metadata.rows ∧ ∀ matcher ∈ compiled,
          matcher.Accepts matchProjectionNames row ∧ matcher.SealedSees matchProjectionNames row := by
  refine (SegmentMetadata.selectedRefs_returns hstores matchProjectionNames hcompiled).mono
    fun refs hrefs row => ?_
  rw [exists_row_iff hrefs row, mem_iff_getElem?]
  simp only [CompiledLabelMatcher.acceptsSealed_iff]
  rfl

theorem selections_fail {e : IoError} (hcompiled : compileLabelMatchers regexNew matchers = .error e)
    (index : HeadSelectorIndex) (metadata : SegmentMetadata)
    (headBudget sealedBudget : QueryBudget) :
    ((index.matchingSeries regexNew matchers matchProjectionNames).exec headBudget).1 = .error e ∧
      ((metadata.selectedRefs matchProjectionNames regexNew matchers).exec sealedBudget).1 =
        .error e := by
  constructor
  · unfold HeadSelectorIndex.matchingSeries matchingSeries
    rw [hcompiled]
    rfl
  · unfold SegmentMetadata.selectedRefs
    rw [hcompiled]
    rfl

/-- A sealed segment and a head window with the same rows select the same of them exactly when the
sealed side sees every row that the matchers accept. -/
theorem sealed_selection_agrees_iff (hstores : metadata.Stores)
    (hrows : ∀ row, row ∈ metadata.rows ↔ ∃ seriesRef ∈ seriesRefs,
      HeadSelectorIndex.rowOf xxhash64 labels seriesRef = some row)
    {headBudget sealedBudget : QueryBudget}
    (hhead : ∀ e, (((HeadSelectorIndex.buildFromSeriesRefs xxhash64 labels seriesRefs).matchingSeries
      regexNew matchers matchProjectionNames).exec headBudget).1 = .error e →
      ¬headBudget.limits.Tripped e)
    (hsealed : ∀ e, ((metadata.selectedRefs matchProjectionNames regexNew matchers).exec
      sealedBudget).1 = .error e → ¬sealedBudget.limits.Tripped e) :
    SelectionsAgree (HeadSelectorIndex.rowOf xxhash64 labels) metadata.rowOf
        (((HeadSelectorIndex.buildFromSeriesRefs xxhash64 labels seriesRefs).matchingSeries
          regexNew matchers matchProjectionNames).exec headBudget).1
        ((metadata.selectedRefs matchProjectionNames regexNew matchers).exec sealedBudget).1 ↔
      ∀ compiled, compileLabelMatchers regexNew matchers = .ok compiled → ∀ row ∈ metadata.rows,
        (∀ matcher ∈ compiled, matcher.Accepts matchProjectionNames row) →
          ∀ matcher ∈ compiled, matcher.SealedSees matchProjectionNames row := by
  rcases hcompiled : compileLabelMatchers regexNew matchers with e | compiled
  · obtain ⟨hheadError, hsealedError⟩ := selections_fail hcompiled
      (HeadSelectorIndex.buildFromSeriesRefs xxhash64 labels seriesRefs) metadata headBudget
      sealedBudget
    rw [hheadError, hsealedError]
    exact iff_of_true rfl nofun
  obtain ⟨headRefs, hheadOk, hheadRows⟩ :=
    (head_matchingSeries_returns xxhash64 labels seriesRefs _ hcompiled).exists_ok hhead
  obtain ⟨sealedRefs, hsealedOk, hsealedRows⟩ :=
    (sealed_selectedRefs_returns hstores _ hcompiled).exists_ok hsealed
  rw [hheadOk, hsealedOk]
  simp only [SelectionsAgree, hheadRows, hsealedRows, ← hrows, Except.ok.injEq, forall_eq']
  refine forall_congr' fun row => ?_
  rw [forall₂_and]
  tauto

end Agree

def jobRow : LabelRow := [("__name__", "up"), ("job", "f")]

def optionalLetter : RegexSyntax := fun text =>
  if text = "^(?:fo?)$" then .ok fun value => value = "f" || value = "fo"
  else .error "unsupported pattern"

theorem rowOf_jobRow : HeadSelectorIndex.rowOf (fun _ => 0) [jobRow] ⟨0⟩ = some jobRow := by
  decide +kernel

theorem jobRow_stores : (SegmentMetadata.ofRows [jobRow]).Stores := by
  refine SegmentMetadata.ofRows_stores fun row hrow => ?_
  rw [mem_singleton.mp hrow]
  exact HeadSelectorIndex.rowOf_increasing rowOf_jobRow

def jobRows : List LabelRow :=
  [jobRow, [("__name__", "up"), ("job", "foo")], [("__name__", "down")]]

def jobRefs : List SeriesRef := [⟨0⟩, ⟨1⟩, ⟨2⟩]

def repeatedLetter : RegexSyntax := fun text =>
  if text = "^(?:fo+)$" then .ok fun value => value = "fo" || value = "foo"
  else .error "unsupported pattern"

theorem map_rowOf_jobRows :
    jobRefs.map (HeadSelectorIndex.rowOf (fun _ => 0) jobRows) = jobRows.map some := by
  decide +kernel

theorem mem_jobRows_iff (row : LabelRow) :
    row ∈ (SegmentMetadata.ofRows jobRows).rows ↔
      ∃ seriesRef ∈ jobRefs, HeadSelectorIndex.rowOf (fun _ => 0) jobRows seriesRef = some row := by
  rw [← mem_map, map_rowOf_jobRows]
  exact (mem_map_of_injective (Option.some_injective _)).symm

theorem jobRows_stores : (SegmentMetadata.ofRows jobRows).Stores := by
  refine SegmentMetadata.ofRows_stores fun row hrow => ?_
  obtain ⟨seriesRef, -, hrow⟩ := (mem_jobRows_iff row).mp hrow
  exact HeadSelectorIndex.rowOf_increasing hrow

/-- Of the jobs `f`, `foo` and none, both sides select `foo` for `fo+`, whose literal prefix is
`fo`. -/
theorem sealed_selection_agrees_regex :
    SelectionsAgree (HeadSelectorIndex.rowOf (fun _ => 0) jobRows)
      (SegmentMetadata.ofRows jobRows).rowOf
      (((HeadSelectorIndex.buildFromSeriesRefs (fun _ => 0) jobRows jobRefs).matchingSeries
        repeatedLetter [.regex "job" "fo+"] true).exec QueryBudget.unlimited).1
      (((SegmentMetadata.ofRows jobRows).selectedRefs true repeatedLetter
        [.regex "job" "fo+"]).exec QueryBudget.unlimited).1 := by
  refine (sealed_selection_agrees_iff jobRows_stores mem_jobRows_iff
    (fun e _ => QueryLimits.not_tripped_unlimited e)
    fun e _ => QueryLimits.not_tripped_unlimited e).mpr ?_
  rintro _ ⟨⟩ row hrow haccepts matcher hmatcher
  rw [mem_singleton.mp hmatcher]
  obtain ⟨value, hvalue, hmatch⟩ := haccepts _ (mem_singleton_self _)
  intro _ found hfound
  obtain rfl := Option.some.inj (hvalue.symm.trans hfound)
  have hread : value = "fo" ∨ value = "foo" := by
    simpa [regexReads, metricNameLabel] using hmatch
  refine ⟨some "fo", mem_singleton_self _, ?_⟩
  rcases hread with rfl | rfl
  · decide
  · decide

/-- The literal prefix of `fo?` is `fo`: a sealed segment does not find the job `f`. -/
theorem optional_letter_lost_when_sealed :
    ¬SelectionsAgree (HeadSelectorIndex.rowOf (fun _ => 0) [jobRow])
      (SegmentMetadata.ofRows [jobRow]).rowOf
      (((HeadSelectorIndex.buildFromSeriesRefs (fun _ => 0) [jobRow] [⟨0⟩]).matchingSeries
        optionalLetter [.regex "job" "fo?"] false).exec QueryBudget.unlimited).1
      (((SegmentMetadata.ofRows [jobRow]).selectedRefs false optionalLetter
        [.regex "job" "fo?"]).exec QueryBudget.unlimited).1 := by
  have hcompiled : compileLabelMatchers optionalLetter [.regex "job" "fo?"] =
      .ok [.regex "job" ⟨"^(?:fo?)$", fun value => value = "f" || value = "fo"⟩] := rfl
  have hfits : ∀ e, ¬QueryBudget.unlimited.limits.Tripped e := QueryLimits.not_tripped_unlimited
  obtain ⟨headRefs, hheadOk, hhead⟩ := (head_matchingSeries_returns (fun _ => 0) [jobRow] [⟨0⟩]
    false hcompiled).exists_ok fun e _ => hfits e
  obtain ⟨sealedRefs, hsealedOk, hsealed⟩ :=
    (sealed_selectedRefs_returns jobRow_stores false hcompiled).exists_ok fun e _ => hfits e
  rw [hheadOk, hsealedOk]
  intro hagree
  have haccepts : ∀ matcher ∈ [CompiledLabelMatcher.regex "job"
      ⟨"^(?:fo?)$", fun value => value = "f" || value = "fo"⟩], matcher.Accepts false jobRow := by
    intro matcher hmatcher
    rw [mem_singleton.mp hmatcher]
    exact ⟨"f", rfl, rfl⟩
  have hfound := (hagree jobRow).mp ((hhead jobRow).mpr
    ⟨⟨⟨0⟩, mem_singleton_self _, rowOf_jobRow⟩, haccepts⟩)
  have hsees := (((hsealed jobRow).mp hfound).2 _ (mem_singleton_self _)).2 rfl "f" rfl
  obtain ⟨start, hstart, hstarts⟩ := hsees
  obtain rfl := mem_singleton.mp (show start ∈ [some "fo"] from hstart)
  exact absurd hstarts (by decide)

end Chronoxide
