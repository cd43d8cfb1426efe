import Chronoxide.Collections.SortedSet
import Chronoxide.Query.Budget
import Chronoxide.Query.Matcher

/-! Selection of series through postings, as the head window (`head/window.rs`) and the live catalog
(`head/catalog.rs`) both do it. -/

namespace Chronoxide
open Fallible SortedSet List

structure SelectorPostings (ρ : Type) where
  all : List ρ
  exactPostings : String → String → Charged (List ρ)
  regexPostings : String → String → Bool → Charged (List ρ)
  chargeRegexValues : String → Charged Unit
  exclude : List ρ → List ρ → List ρ
  retains : List CompiledLabelMatcher → Bool → ρ → Charged Bool

variable {ρ : Type} [LinearOrder ρ]

def narrow (candidates : Option (List ρ)) (positive : List ρ) : List ρ :=
  match candidates with
  | some existing => intersectSorted existing positive
  | none => positive

theorem narrow_is {all positive : List ρ} {candidates : Option (List ρ)} {P Q : ρ → Prop}
    (hcandidates : Is (candidates.getD all) P) (hpositive : Is positive Q)
    (hall : ∀ series, Q series → series ∈ all) :
    Is (narrow candidates positive) fun series => P series ∧ Q series := by
  cases candidates with
  | some existing => exact hcandidates.intersect hpositive
  | none =>
    refine hpositive.congr fun series => ⟨fun h => ⟨?_, h⟩, fun h => h.2⟩
    exact (hcandidates.mem_iff series).mp (hall series h)

namespace SelectorPostings

section
variable (source : SelectorPostings ρ) (matchProjectionNames : Bool)

def positivePosting : NormalizedMatcher → Charged (Option (List ρ))
  | .eq name value => some <$> source.exactPostings name value
  | .regex name pattern =>
    some <$> source.regexPostings name pattern (matchProjectionNames && name = metricNameLabel)
  | .notEq .. | .notRegex .. => pure none

/-- Every value of the label is one expansion of the regex, also where no posting is read. -/
def chargeScan : NormalizedMatcher → Charged Unit
  | .regex name _ | .notRegex name _ => source.chargeRegexValues name
  | .eq .. | .notEq .. => pure ()

/-- The loop over positive matchers. An empty posting ends the selection without `next`. -/
def positiveLoop (next : Option (List ρ) → Charged (List ρ)) :
    List (NormalizedMatcher × CompiledLabelMatcher) → Option (List ρ) → Charged (List ρ)
  | [], candidates => next candidates
  | (matcher, compiled) :: rest, candidates =>
    if compiled.requiresMissingLabelScan then do
      source.chargeScan matcher
      positiveLoop next rest candidates
    else do
      match ← source.positivePosting matchProjectionNames matcher with
      | some positive =>
        if positive.isEmpty then pure []
        else positiveLoop next rest (some (narrow candidates positive))
      | none => positiveLoop next rest candidates

def negativePosting : NormalizedMatcher → Charged (Option (List ρ))
  | .notEq name value => some <$> source.exactPostings name value
  | .notRegex name pattern => some <$> source.regexPostings name pattern false
  | .eq .. | .regex .. => pure none

def negativeLoop :
    List (NormalizedMatcher × CompiledLabelMatcher) → List ρ → Charged (List ρ)
  | [], candidates => pure candidates
  | (matcher, compiled) :: rest, candidates =>
    if compiled.requiresMissingLabelScan then negativeLoop rest candidates
    else do
      match ← source.negativePosting matcher with
      | some posting => negativeLoop rest (source.exclude candidates posting)
      | none => negativeLoop rest candidates

def retainLoop (compiled : List CompiledLabelMatcher) : List ρ → Charged (List ρ)
  | [] => pure []
  | series :: rest => do
    let keep ← source.retains compiled matchProjectionNames series
    let kept ← retainLoop compiled rest
    pure (if keep then series :: kept else kept)

def matchingSeries (regexNew : RegexSyntax) (matchers : List NormalizedMatcher) :
    Charged (List ρ) := do
  let compiled ← MonadExcept.ofExcept (compileLabelMatchers regexNew matchers)
  let pairs := matchers.zip compiled
  source.positiveLoop matchProjectionNames (fun candidates => do
    let candidates ← source.negativeLoop pairs (candidates.getD source.all)
    if compiled.any (·.requiresMissingLabelScan) then
      source.retainLoop matchProjectionNames compiled candidates
    else pure candidates) pairs none

end

def Stored (rowOf : ρ → Option LabelRow) (p : LabelRow → Prop) (series : ρ) : Prop :=
  ∃ row, rowOf series = some row ∧ p row

section
variable {rowOf : ρ → Option LabelRow} {p q : LabelRow → Prop} {series : ρ}

section
omit [LinearOrder ρ]

theorem stored_iff_of_row {row : LabelRow} (hrow : rowOf series = some row) :
    Stored rowOf p series ↔ p row := by
  refine ⟨fun ⟨row', hrow', hp⟩ => ?_, fun hp => ⟨row, hrow, hp⟩⟩
  obtain rfl := Option.some.inj (hrow.symm.trans hrow')
  exact hp

theorem stored_and_iff :
    Stored rowOf p series ∧ Stored rowOf q series ↔
      Stored rowOf (fun row => p row ∧ q row) series := by
  constructor
  · rintro ⟨⟨row, hrow, hp⟩, hq⟩
    exact ⟨row, hrow, hp, (stored_iff_of_row hrow).mp hq⟩
  · rintro ⟨row, hrow, hp, hq⟩
    exact ⟨⟨row, hrow, hp⟩, row, hrow, hq⟩

theorem stored_or_iff :
    Stored rowOf p series ∨ Stored rowOf q series ↔
      Stored rowOf (fun row => p row ∨ q row) series := by
  simp only [Stored, and_or_left, exists_or]

theorem stored_and_not_iff :
    Stored rowOf p series ∧ ¬Stored rowOf q series ↔
      Stored rowOf (fun row => p row ∧ ¬q row) series := by
  constructor
  · rintro ⟨⟨row, hrow, hp⟩, hq⟩
    exact ⟨row, hrow, hp, fun hq' => hq ⟨row, hrow, hq'⟩⟩
  · rintro ⟨row, hrow, hp, hq⟩
    exact ⟨⟨row, hrow, hp⟩, fun hq' => hq ((stored_iff_of_row hrow).mp hq')⟩

theorem stored_congr (h : ∀ row, p row ↔ q row) : Stored rowOf p series ↔ Stored rowOf q series :=
  exists_congr fun row => and_congr_right fun _ => h row

end

theorem is_congr {refs : List ρ} (hrefs : Is refs (Stored rowOf p)) (h : ∀ row, p row ↔ q row) :
    Is refs (Stored rowOf q) := hrefs.congr fun _ => stored_congr h

end

theorem exists_row_iff {refs : List ρ} {rowOf : ρ → Option LabelRow} {p : LabelRow → Prop}
    (h : Is refs (Stored rowOf p)) (row : LabelRow) :
    (∃ series ∈ refs, rowOf series = some row) ↔ (∃ series, rowOf series = some row) ∧ p row := by
  constructor
  · rintro ⟨series, hmem, hrow⟩
    exact ⟨⟨series, hrow⟩, (stored_iff_of_row hrow).mp ((h.mem_iff series).mp hmem)⟩
  · rintro ⟨⟨series, hrow⟩, hp⟩
    exact ⟨series, (h.mem_iff series).mpr ⟨row, hrow, hp⟩, hrow⟩

theorem valueLoop_returns {ι : Type} {limits : QueryLimits} {rowOf : ρ → Option LabelRow}
    {entries : List ι} {value : ι → String} {posting : ι → List ρ} {name : String}
    (isMatch : String → Bool)
    (hposting : ∀ entry ∈ entries,
      Is (posting entry) (Stored rowOf fun row => labelValue row name = some (value entry)))
    (hvalues : ∀ series row found, rowOf series = some row → labelValue row name = some found →
      ∃ entry ∈ entries, value entry = found) :
    Returns limits (entries.foldlM (fun out entry => do
      QueryBudget.observeRegexValue
      pure (if isMatch (value entry) then unionSorted out (posting entry) else out)) [])
      fun refs => Is refs (Stored rowOf fun row =>
        ∃ found, labelValue row name = some found ∧ isMatch found) := by
  refine (Returns.foldlM (I := fun done out => Is out (Stored rowOf fun row =>
    ∃ entry ∈ done, labelValue row name = some (value entry) ∧ isMatch (value entry))) ?_ ?_).mono ?_
  · intro entry hentry done out hout
    refine Returns.observeRegexValue.seq fun _ _ => Returns.ret ?_
    cases hmatch : isMatch (value entry) with
    | true =>
      refine (hout.union (hposting entry hentry)).congr fun _ => ?_
      rw [stored_or_iff]
      refine stored_congr fun row => ?_
      rw [exists_mem_concat, and_iff_left hmatch]
    | false =>
      refine is_congr hout fun row => ?_
      rw [exists_mem_concat, hmatch]
      exact (or_iff_left fun h => Bool.false_ne_true h.2).symm
  · refine Is.nil fun _ hstored => ?_
    obtain ⟨-, -, entry, hentry, -⟩ := hstored
    cases hentry
  · intro refs hrefs
    refine hrefs.congr fun series => ⟨?_, ?_⟩
    · rintro ⟨row, hrow, entry, -, hfound⟩
      exact ⟨row, hrow, value entry, hfound⟩
    · rintro ⟨row, hrow, found, hfound, hmatch⟩
      obtain ⟨entry, hentry, rfl⟩ := hvalues series row found hrow hfound
      exact ⟨row, hrow, entry, hentry, hfound, hmatch⟩

/-- The postings of the rows that the series have. -/
structure Faithful (source : SelectorPostings ρ) (regexNew : RegexSyntax) (limits : QueryLimits)
    (rowOf : ρ → Option LabelRow) : Prop where
  all : Is source.all (Stored rowOf fun _ => True)
  exactPostings : ∀ name value, Returns limits (source.exactPostings name value) fun refs =>
    Is refs (Stored rowOf fun row => labelValue row name = some value)
  regexPostings : ∀ name pattern regex projected,
    compilePromqlRegex regexNew pattern = .ok regex →
    Returns limits (source.regexPostings name pattern projected) fun refs =>
      Is refs (Stored rowOf fun row => ∃ value, labelValue row name = some value ∧
        (if projected then promqlProjectionMetricNameMatches value regex else regex.isMatch value))
  chargeRegexValues : ∀ name, Returns limits (source.chargeRegexValues name) fun _ => True
  exclude : ∀ candidates posting P Q, Is candidates P → Is posting Q →
    Is (source.exclude candidates posting) fun series => P series ∧ ¬Q series
  retains : ∀ compiled projected series row, rowOf series = some row →
    Returns limits (source.retains compiled projected series) fun keep =>
      keep = true ↔ ∀ matcher ∈ compiled, matcher.requiresMissingLabelScan →
        matcher.matchesValue ((labelValue row matcher.name).getD "") projected

section
variable (projected : Bool) (row : LabelRow) (matcher : CompiledLabelMatcher)

def PositivePart : Prop :=
  matcher.requiresMissingLabelScan = false → matcher.isPositive → matcher.Accepts projected row

def NegativePart : Prop :=
  matcher.requiresMissingLabelScan = false → matcher.isPositive = false →
    matcher.Accepts projected row

def ScannedPart : Prop :=
  matcher.requiresMissingLabelScan →
    matcher.matchesValue ((labelValue row matcher.name).getD "") projected

theorem accepts_iff_parts : matcher.Accepts projected row ↔
    PositivePart projected row matcher ∧ NegativePart projected row matcher ∧
      ScannedPart projected row matcher := by
  unfold PositivePart NegativePart ScannedPart
  cases hscan : matcher.requiresMissingLabelScan with
  | true => simp [CompiledLabelMatcher.Accepts, hscan]
  | false => cases hpositive : matcher.isPositive <;> simp

end

variable {source : SelectorPostings ρ} {regexNew : RegexSyntax} {limits : QueryLimits}
  {rowOf : ρ → Option LabelRow} {projected : Bool} {p : LabelRow → Prop}
  {pairs : List (NormalizedMatcher × CompiledLabelMatcher)}

variable (hsource : source.Faithful regexNew limits rowOf)
include hsource

theorem positivePosting_returns {matcher : NormalizedMatcher} {compiled : CompiledLabelMatcher}
    (hcompiles : Compiles regexNew matcher compiled)
    (hscan : compiled.requiresMissingLabelScan = false) :
    Returns limits (source.positivePosting projected matcher) fun
      | some refs => compiled.isPositive ∧ Is refs (Stored rowOf (compiled.Accepts projected))
      | none => compiled.isPositive = false := by
  cases hcompiles with
  | eq name value =>
    refine (hsource.exactPostings name value).map fun refs hrefs => ⟨rfl, is_congr hrefs fun row => ?_⟩
    simp only [CompiledLabelMatcher.Accepts, hscan, Bool.false_eq_true, if_false]
  | regex name hregex =>
    refine (hsource.regexPostings name _ _ _ hregex).map fun refs hrefs =>
      ⟨rfl, is_congr hrefs fun row => ?_⟩
    simp only [CompiledLabelMatcher.Accepts, hscan, Bool.false_eq_true, if_false, regexReads]
  | notEq name value => exact Returns.ret rfl
  | notRegex name hregex => exact Returns.ret rfl

theorem negativePosting_returns (projected : Bool) {matcher : NormalizedMatcher}
    {compiled : CompiledLabelMatcher} (hcompiles : Compiles regexNew matcher compiled)
    (hscan : compiled.requiresMissingLabelScan = false) :
    Returns limits (source.negativePosting matcher) fun
      | some refs => compiled.isPositive = false ∧
          Is refs (Stored rowOf fun row => ¬compiled.Accepts projected row)
      | none => compiled.isPositive = true := by
  cases hcompiles with
  | eq name value => exact Returns.ret rfl
  | regex name hregex => exact Returns.ret rfl
  | notEq name value =>
    refine (hsource.exactPostings name value).map fun refs hrefs => ⟨rfl, is_congr hrefs fun row => ?_⟩
    simp only [CompiledLabelMatcher.Accepts, hscan, Bool.false_eq_true, if_false, ne_eq, not_not]
  | notRegex name hregex =>
    refine (hsource.regexPostings name _ _ false hregex).map fun refs hrefs =>
      ⟨rfl, is_congr hrefs fun row => ?_⟩
    simp only [CompiledLabelMatcher.Accepts, hscan, Bool.false_eq_true, if_false, not_forall,
      not_not, exists_prop]

theorem positiveLoop_returns {next : Option (List ρ) → Charged (List ρ)} {R : List ρ → Prop}
    {candidates : Option (List ρ)} (hpairs : ∀ pair ∈ pairs, Compiles regexNew pair.1 pair.2)
    (hcandidates : Is (candidates.getD source.all) (Stored rowOf p))
    (hnext : ∀ candidates : Option (List ρ),
      Is (candidates.getD source.all) (Stored rowOf fun row =>
        p row ∧ ∀ pair ∈ pairs, PositivePart projected row pair.2) →
      Returns limits (next candidates) R)
    (hempty : (∀ series, ¬Stored rowOf (fun row =>
      ∀ pair ∈ pairs, PositivePart projected row pair.2) series) → R []) :
    Returns limits (source.positiveLoop projected next pairs candidates) R := by
  induction pairs generalizing p candidates with
  | nil =>
    refine hnext _ (is_congr hcandidates fun row => ?_)
    simp
  | cons pair pairs ih =>
    obtain ⟨matcher, compiled⟩ := pair
    obtain ⟨hcompiles, hpairs⟩ := forall_mem_cons.mp hpairs
    simp only [forall_mem_cons] at hnext hempty
    -- A matcher that leaves the candidates alone has no positive part.
    have hskip : (∀ row, PositivePart projected row compiled) →
        Returns limits (source.positiveLoop projected next pairs candidates) R := by
      intro hpart
      refine ih hpairs hcandidates (fun candidates hcandidates => ?_) fun hnone => ?_
      · refine hnext _ (is_congr hcandidates fun row => ?_)
        rw [and_iff_right (hpart row)]
      · refine hempty fun series => ?_
        simpa only [hpart, true_and] using hnone series
    unfold positiveLoop
    cases hscan : compiled.requiresMissingLabelScan with
    | true =>
      rw [if_pos rfl]
      have hpart : ∀ row, PositivePart projected row compiled := by
        intro row hnot
        rw [hscan] at hnot
        cases hnot
      refine Returns.seq (Q := fun _ => True) ?_ fun _ _ => hskip hpart
      cases matcher with
      | eq | notEq => exact Returns.ret trivial
      | regex name | notRegex name => exact hsource.chargeRegexValues name
    | false =>
      rw [if_neg Bool.false_ne_true]
      refine (positivePosting_returns hsource hcompiles hscan).seq fun posting hposting => ?_
      cases posting with
      | none =>
        refine hskip fun row _ hpositive => ?_
        rw [hposting] at hpositive
        cases hpositive
      | some positive =>
        obtain ⟨hpositive, hposting⟩ := hposting
        have hpart : ∀ row, PositivePart projected row compiled ↔
            compiled.Accepts projected row :=
          fun row => ⟨fun h => h hscan hpositive, fun h _ _ => h⟩
        dsimp only
        split
        · rename_i hisEmpty
          refine Returns.ret (hempty fun series hseries => ?_)
          refine hposting.not_of_isEmpty hisEmpty series ?_
          obtain ⟨row, hrow, haccepts, -⟩ := hseries
          exact ⟨row, hrow, (hpart row).mp haccepts⟩
        · have hnarrow : Is ((some (narrow candidates positive)).getD source.all)
              (Stored rowOf fun row => p row ∧ compiled.Accepts projected row) :=
            (narrow_is hcandidates hposting fun series ⟨row, hrow, _⟩ =>
              (hsource.all.mem_iff series).mpr ⟨row, hrow, trivial⟩).congr fun _ => stored_and_iff
          refine ih hpairs hnarrow (fun candidates hcandidates => ?_) fun hnone => ?_
          · refine hnext _ (is_congr hcandidates fun row => ?_)
            rw [hpart, and_assoc]
          · refine hempty fun series hseries => hnone series ?_
            obtain ⟨row, hrow, -, hrest⟩ := hseries
            exact ⟨row, hrow, hrest⟩

theorem negativeLoop_returns (projected : Bool) {candidates : List ρ}
    (hpairs : ∀ pair ∈ pairs, Compiles regexNew pair.1 pair.2)
    (hcandidates : Is candidates (Stored rowOf p)) :
    Returns limits (source.negativeLoop pairs candidates) fun refs =>
      Is refs (Stored rowOf fun row =>
        p row ∧ ∀ pair ∈ pairs, NegativePart projected row pair.2) := by
  induction pairs generalizing p candidates with
  | nil =>
    refine Returns.ret (is_congr hcandidates fun row => ?_)
    simp
  | cons pair pairs ih =>
    obtain ⟨matcher, compiled⟩ := pair
    obtain ⟨hcompiles, hpairs⟩ := forall_mem_cons.mp hpairs
    simp only [forall_mem_cons]
    have hskip : (∀ row, NegativePart projected row compiled) →
        Returns limits (source.negativeLoop pairs candidates) fun refs =>
          Is refs (Stored rowOf fun row => p row ∧ NegativePart projected row compiled ∧
            ∀ pair ∈ pairs, NegativePart projected row pair.2) := by
      intro hpart
      refine (ih hpairs hcandidates).mono fun refs hrefs =>
        is_congr hrefs fun row => ?_
      rw [and_iff_right (hpart row)]
    unfold negativeLoop
    cases hscan : compiled.requiresMissingLabelScan with
    | true =>
      rw [if_pos rfl]
      refine hskip fun row hnot => ?_
      rw [hscan] at hnot
      cases hnot
    | false =>
      rw [if_neg Bool.false_ne_true]
      refine (negativePosting_returns hsource projected hcompiles hscan).seq fun posting hposting => ?_
      cases posting with
      | none =>
        refine hskip fun row _ hnegative => ?_
        rw [hposting] at hnegative
        cases hnegative
      | some posting =>
        obtain ⟨hnegative, hposting⟩ := hposting
        have hexclude := (hsource.exclude _ _ _ _ hcandidates hposting).congr
          fun series => stored_and_not_iff
        refine (ih hpairs hexclude).mono fun refs hrefs =>
          is_congr hrefs fun row => ?_
        rw [not_not, and_assoc]
        have hpart : NegativePart projected row compiled ↔ compiled.Accepts projected row :=
          ⟨fun h => h hscan hnegative, fun h _ _ => h⟩
        rw [hpart]

theorem retainLoop_returns {compiled : List CompiledLabelMatcher} {candidates : List ρ}
    (hcandidates : Is candidates (Stored rowOf p)) :
    Returns limits (source.retainLoop projected compiled candidates) fun refs =>
      Is refs (Stored rowOf fun row =>
        p row ∧ ∀ matcher ∈ compiled, ScannedPart projected row matcher) := by
  classical
  let keep : ρ → Bool := fun series => decide (Stored rowOf
    (fun row => ∀ matcher ∈ compiled, ScannedPart projected row matcher) series)
  have hfilter : ∀ l : List ρ, (∀ series ∈ l, ∃ row, rowOf series = some row) →
      Returns limits (source.retainLoop projected compiled l) (· = l.filter keep) := by
    intro l hl
    induction l with
    | nil => exact Returns.ret rfl
    | cons series l ih =>
      obtain ⟨⟨row, hrow⟩, hl⟩ := forall_mem_cons.mp hl
      unfold retainLoop
      refine (hsource.retains compiled projected series row hrow).seq fun kept hkept => ?_
      refine (ih hl).seq fun rest hrest => Returns.ret ?_
      have hkeep : keep series = kept := by
        rw [Bool.eq_iff_iff, hkept, decide_eq_true_iff, stored_iff_of_row hrow]
        rfl
      rw [hrest, filter_cons, hkeep]
  refine (hfilter candidates fun series hseries => ?_).mono fun refs hrefs => ?_
  · obtain ⟨row, hrow, -⟩ := (hcandidates.mem_iff series).mp hseries
    exact ⟨row, hrow⟩
  · rw [hrefs]
    refine hcandidates.filter.congr fun series => ?_
    rw [decide_eq_true_iff]
    exact stored_and_iff

theorem matchingSeries_returns {matchers : List NormalizedMatcher}
    {compiled : List CompiledLabelMatcher}
    (hcompiled : compileLabelMatchers regexNew matchers = .ok compiled) :
    Returns limits (source.matchingSeries projected regexNew matchers) fun refs =>
      Is refs (Stored rowOf fun row => ∀ matcher ∈ compiled, matcher.Accepts projected row) := by
  have hcompiles := forall₂_compiles hcompiled
  have hpairs : ∀ pair ∈ matchers.zip compiled, Compiles regexNew pair.1 pair.2 :=
    fun pair hpair => (forall₂_iff_zip.mp hcompiles).2 hpair
  have hsnd : ∀ P : CompiledLabelMatcher → Prop,
      (∀ pair ∈ matchers.zip compiled, P pair.2) ↔ ∀ matcher ∈ compiled, P matcher := by
    intro P
    have hmap : (matchers.zip compiled).map Prod.snd = compiled :=
      map_snd_zip hcompiles.length_eq.ge
    rw [← forall_mem_map (f := Prod.snd), hmap]
  have hall : Is ((none : Option (List ρ)).getD source.all) (Stored rowOf fun _ => True) :=
    hsource.all
  unfold matchingSeries
  rw [hcompiled]
  refine Returns.seq (Q := (· = compiled)) (Returns.ret rfl) fun _ heq => ?_
  rw [heq]
  refine positiveLoop_returns hsource hpairs hall (fun candidates hcandidates => ?_) fun hnone => ?_
  · refine (negativeLoop_returns hsource projected hpairs hcandidates).seq
      fun candidates hcandidates => ?_
    have haccepts : ∀ row, (((True ∧ ∀ pair ∈ matchers.zip compiled,
        PositivePart projected row pair.2) ∧ ∀ pair ∈ matchers.zip compiled,
        NegativePart projected row pair.2) ∧ ∀ matcher ∈ compiled,
        ScannedPart projected row matcher) ↔
        ∀ matcher ∈ compiled, matcher.Accepts projected row := by
      intro row
      simp only [accepts_iff_parts, hsnd, forall_and, true_and, and_assoc]
    split
    · exact (retainLoop_returns hsource hcandidates).mono fun refs hrefs =>
        is_congr hrefs haccepts
    · rename_i hany
      refine Returns.ret (is_congr hcandidates fun row => ?_)
      have hscanned : ∀ matcher ∈ compiled, ScannedPart projected row matcher :=
        fun matcher hmatcher hscan =>
          absurd (any_eq_true.mpr ⟨matcher, hmatcher, hscan⟩) hany
      rw [← haccepts row]
      exact (and_iff_left hscanned).symm
  · refine Is.nil fun series hseries => hnone series ?_
    obtain ⟨row, hrow, haccepts⟩ := hseries
    refine ⟨row, hrow, (hsnd _).mpr fun matcher hmatcher => ?_⟩
    exact ((accepts_iff_parts ..).mp (haccepts matcher hmatcher)).1

end SelectorPostings

end Chronoxide
