import Chronoxide.Query.Selection

/-! Candidate series of a sealed segment (`segment/query_reader/facade.rs`), read through the symbol
dictionary, the exact postings and the label-value dictionary of the segment, and the literal
prefixes of a regex (`segment/promql_lowering.rs`) that bound the walk over a dictionary. -/

namespace Chronoxide
open List hiding dedup
open Fallible SortedSet Returns

/-- A `|` outside classes and escapes. -/
def regexHasUnescapedAlternation (escaped inClass : Bool) : List Char → Bool
  | [] => false
  | ch :: rest =>
    if escaped then regexHasUnescapedAlternation false inClass rest
    else if ch = '\\' then regexHasUnescapedAlternation true inClass rest
    else if ch = '[' && !inClass then regexHasUnescapedAlternation false true rest
    else if ch = ']' && inClass then regexHasUnescapedAlternation false false rest
    else if ch = '|' && !inClass then true
    else regexHasUnescapedAlternation false inClass rest

def regexSpecial : List Char := ['.', '*', '+', '?', '(', ')', '|', '[', ']', '\x7b', '\x7d', '^', '$']

def isRegexLiteralEscape (ch : Char) : Bool := ch = '\\' || ch = '-' || ch ∈ regexSpecial

/-- The literal characters up to the first special one; an escape at the end is refused. -/
def literalChars : List Char → Option (List Char)
  | [] => some []
  | '\\' :: [] => none
  | '\\' :: escaped :: rest =>
    if isRegexLiteralEscape escaped then (literalChars rest).map (escaped :: ·) else some []
  | ch :: rest => if ch ∈ regexSpecial then some [] else (literalChars rest).map (ch :: ·)

def regexLiteralPrefix (pattern : String) : Option String :=
  if regexHasUnescapedAlternation false false pattern.toList then none
  else
    let chars := if pattern.toList.head? = some '^' then pattern.toList.tail else pattern.toList
    match literalChars chars with
    | none | some [] => none
    | some literal => some (String.ofList literal)

def regexLiteralPrefixes (pattern : String) (matchProjectionNames : Bool) : List String :=
  match regexLiteralPrefix pattern with
  | none => []
  | some literal =>
    let bases := if matchProjectionNames then
      promqlProjectionSuffixes.filterMap fun suffix =>
        (stripSuffix literal suffix).filter fun base => !base.isEmpty
      else []
    bases.foldl (fun prefixes base => unionSorted prefixes [base]) [literal]

def regexMatcherLiteralPrefixes (matcher : CompiledLabelMatcher) (matchProjectionNames : Bool) :
    List String :=
  match matcher with
  | .regex name pattern | .notRegex name pattern =>
    let source := ((stripPrefix pattern.asStr "^(?:").bind (stripSuffix · ")$")).getD pattern.asStr
    regexLiteralPrefixes source (matchProjectionNames && name = metricNameLabel)
  | .eq .. | .notEq .. => []

structure ExactPostings where
  encodedLen : Nat
  cardinalityKey : Nat
  refs : List Nat
  deriving DecidableEq, Repr

structure SegmentMetadata where
  symbols : List String
  selectExactPostings : Nat → Nat → Option ExactPostings
  /-- The values of a label with their symbols, ascending. -/
  labelValues : Nat → List (Nat × String)
  rows : List LabelRow

inductive SegmentPruneReason
  | missingEquality
  deriving DecidableEq, Repr

namespace SegmentMetadata

variable (metadata : SegmentMetadata)

def lookupSymbol (value : String) : Option Nat := metadata.symbols.idxOf? value

def allSeriesRefSet : List Nat := range metadata.rows.length

/-- The walk starts at the first value that is not below the bound and ends where it no longer
begins the value. -/
def visitLabelValues (labelNameSym : Nat) (start : Option String) : List (Nat × String) :=
  match start.filter fun start => !start.isEmpty with
  | none => metadata.labelValues labelNameSym
  | some start => ((metadata.labelValues labelNameSym).dropWhile fun entry => entry.2 < start).takeWhile
    fun entry => startsWith entry.2 start

def exactSelection (name value : String) : Option ExactPostings := do
  let nameSym ← metadata.lookupSymbol name
  let valueSym ← metadata.lookupSymbol value
  metadata.selectExactPostings nameSym valueSym

def readPostingsSet (selection : ExactPostings) : Charged (List Nat) := do
  QueryBudget.observeIndexPostingsRead selection.encodedLen
  pure selection.refs

def regexPatternMatches (matcher : CompiledLabelMatcher) (value : String)
    (matchProjectionNames : Bool) : Bool :=
  match matcher with
  | .regex .. => matcher.matchesValue value matchProjectionNames
  | .notRegex .. => !matcher.matchesValue value matchProjectionNames
  | .eq .. | .notEq .. => false

section
variable (matchProjectionNames : Bool) (matcher : CompiledLabelMatcher)

/-- One value: the symbols that were seen and the series that matched so far. -/
def regexValueStep (nameSym : Nat) (state : List Nat × List Nat) (entry : Nat × String)
    : Charged (List Nat × List Nat) :=
  if entry.1 ∈ state.1 then pure state
  else do
    QueryBudget.observeRegexValue
    if regexPatternMatches matcher entry.2 matchProjectionNames then
      match metadata.selectExactPostings nameSym entry.1 with
      | none => throw (invalidData "label-value FST entry has no exact postings record")
      | some selection => do
        let postings ← readPostingsSet selection
        pure (entry.1 :: state.1, unionSorted state.2 postings)
    else pure (entry.1 :: state.1, state.2)

def visitPrefixes : List (Option String) :=
  let prefixes := regexMatcherLiteralPrefixes matcher matchProjectionNames
  if prefixes.isEmpty then [none] else prefixes.map some

def regexPostingsSet : Charged (List Nat) :=
  match metadata.lookupSymbol matcher.name with
  | none => pure []
  | some nameSym => do
    let state ← (visitPrefixes matchProjectionNames matcher).foldlM (fun state start =>
      (metadata.visitLabelValues nameSym start).foldlM
        (metadata.regexValueStep matchProjectionNames matcher nameSym) state) ([], [])
    pure state.2

def requiredEquality : CompiledLabelMatcher → Option (String × String)
  | .eq name value => if value.isEmpty then none else some (name, value)
  | _ => none

/-- The loops over positive matchers. An empty set ends the search without `next`. -/
def narrowLoop {β : Type} (posting : β → Charged (Option (List Nat)))
    (next : Option (List Nat) → Charged (List Nat)) :
    List β → Option (List Nat) → Charged (List Nat)
  | [], candidates => next candidates
  | item :: rest, candidates => do
    match ← posting item with
    | none => narrowLoop posting next rest candidates
    | some positive =>
      let current := narrow candidates positive
      if current.isEmpty then pure current else narrowLoop posting next rest (some current)

def requiredRegexRefs : CompiledLabelMatcher → Charged (Option (List Nat))
  | .regex name pattern =>
    if pattern.isMatch "" then pure none
    else some <$> metadata.regexPostingsSet matchProjectionNames (.regex name pattern)
  | .eq .. | .notEq .. | .notRegex .. => pure none

def excludedRefs : CompiledLabelMatcher → Charged (Option (List Nat))
  | .notEq name value =>
    if value.isEmpty then pure none
    else match metadata.exactSelection name value with
      | some selection => some <$> readPostingsSet selection
      | none => pure none
  | .notRegex name pattern =>
    if pattern.isMatch "" then pure none
    else some <$> metadata.regexPostingsSet matchProjectionNames (.notRegex name pattern)
  | .eq .. | .regex .. => pure none

def exclusionLoop : List CompiledLabelMatcher → List Nat → Charged (List Nat)
  | [], candidates => pure candidates
  | matcher :: rest, candidates => do
    match ← metadata.excludedRefs matchProjectionNames matcher with
    | none => exclusionLoop rest candidates
    | some excluded =>
      let candidates := subtractSorted candidates excluded
      if candidates.isEmpty then pure candidates else exclusionLoop rest candidates

def facadeCandidateRefs (matchers : List CompiledLabelMatcher) :
    Charged (Except SegmentPruneReason (List Nat)) :=
  match (matchers.filterMap requiredEquality).mapM fun pair => metadata.exactSelection pair.1 pair.2 with
  | none => pure (.error .missingEquality)
  | some selections => do
    let selections := selections.mergeSort fun left right => left.cardinalityKey ≤ right.cardinalityKey
    QueryBudget.observeSegmentQueried
    .ok <$> narrowLoop (fun selection => some <$> readPostingsSet selection) (fun candidates =>
      narrowLoop (metadata.requiredRegexRefs matchProjectionNames) (fun candidates => do
        let candidates ← metadata.exclusionLoop matchProjectionNames matchers
          (candidates.getD metadata.allSeriesRefSet)
        QueryBudget.observeCandidateSeriesRefs candidates.length
        pure candidates) matchers candidates) selections none

/-- The series that a plan keeps: the candidates whose labels pass every matcher. -/
def selectedRefs (regexNew : RegexSyntax) (matchers : List NormalizedMatcher) :
    Charged (List Nat) := do
  let compiled ← MonadExcept.ofExcept (compileLabelMatchers regexNew matchers)
  match ← metadata.facadeCandidateRefs matchProjectionNames compiled with
  | .error .missingEquality => do
    QueryBudget.observeSegmentSkippedByMissingEquality
    pure []
  | .ok candidates => pure (candidates.filter fun seriesRef =>
    (metadata.rows[seriesRef]?).any fun labels =>
      labelsMatchFacade labels compiled matchProjectionNames)

end

end SegmentMetadata

theorem startsWith_iff {value start : String} :
    startsWith value start ↔ start.toList <+: value.toList := isPrefixOf_iff_prefix

theorem not_lt_of_isPrefix {start value : List Char} (h : start <+: value) : ¬value < start := by
  induction start generalizing value with
  | nil => exact not_lt_nil _
  | cons c start ih =>
    obtain ⟨rest, rfl⟩ := h
    rw [cons_append, cons_lt_cons_iff]
    rintro (hlt | ⟨-, hlt⟩)
    · exact lt_irrefl c hlt
    · exact ih (prefix_append start rest) hlt

theorem isPrefix_of_between {start x y : List Char} (hlow : ¬x < start) (hxy : x < y)
    (hy : start <+: y) : start <+: x := by
  induction start generalizing x y with
  | nil => exact nil_prefix
  | cons c start ih =>
    obtain ⟨rest, rfl⟩ := hy
    cases x with
    | nil => exact absurd (nil_lt_cons c start) hlow
    | cons d x =>
      rw [cons_lt_cons_iff, not_or] at hlow
      rw [cons_append, cons_lt_cons_iff] at hxy
      rcases hxy with hlt | ⟨rfl, hlt⟩
      · exact absurd hlt hlow.1
      · have hstart := ih (fun h => hlow.2 ⟨rfl, h⟩) hlt (prefix_append start rest)
        exact (prefix_cons_inj d).mpr hstart

namespace SegmentMetadata
open SelectorPostings

variable {metadata : SegmentMetadata}

def rowOf (metadata : SegmentMetadata) (seriesRef : Nat) : Option LabelRow :=
  metadata.rows[seriesRef]?

/-- Canonical rows, and dictionaries that are the inverse of them. -/
structure Stores (metadata : SegmentMetadata) : Prop where
  canonical : ∀ row ∈ metadata.rows, KeepLast.Increasing Prod.fst row
  symbols : ∀ row ∈ metadata.rows, ∀ label ∈ row,
    label.1 ∈ metadata.symbols ∧ label.2 ∈ metadata.symbols
  exact : ∀ nameSym valueSym name value, metadata.symbols[nameSym]? = some name →
    metadata.symbols[valueSym]? = some value →
    match metadata.selectExactPostings nameSym valueSym with
    | some postings => Is postings.refs (Stored metadata.rowOf fun row => (name, value) ∈ row)
    | none => ∀ row ∈ metadata.rows, (name, value) ∉ row
  values : ∀ nameSym name, metadata.symbols[nameSym]? = some name → ∀ valueSym value,
    (valueSym, value) ∈ metadata.labelValues nameSym ↔
      metadata.lookupSymbol value = some valueSym ∧ ∃ row ∈ metadata.rows, (name, value) ∈ row
  ascending : ∀ nameSym, (metadata.labelValues nameSym).Pairwise fun a b => a.2 < b.2

theorem mem_visitLabelValues (hstores : metadata.Stores) (nameSym : Nat) (start : Option String)
    (entry : Nat × String) :
    entry ∈ metadata.visitLabelValues nameSym start ↔
      entry ∈ metadata.labelValues nameSym ∧ start.all (startsWith entry.2) := by
  unfold visitLabelValues
  rcases start with _ | start
  · simp
  rcases hempty : start.isEmpty with _ | _
  · simp only [Option.filter_some, hempty, Bool.not_false, if_true, Option.all_some]
    rw [takeWhile_dropWhile_eq_filter (hstores.ascending nameSym), mem_filter]
    · intro x hlow
      rw [decide_eq_true_iff, String.lt_iff_toList_lt] at hlow
      rw [← Bool.not_eq_true, startsWith_iff]
      exact fun h => not_lt_of_isPrefix h hlow
    · intro x y hxy hlow
      rw [decide_eq_false_iff_not] at hlow ⊢
      exact fun h => hlow (hxy.trans h)
    intro x y hxy hlow hx
    rw [decide_eq_false_iff_not, String.lt_iff_toList_lt] at hlow
    rw [← Bool.not_eq_true, startsWith_iff] at hx ⊢
    exact fun hy => hx (isPrefix_of_between hlow (String.lt_iff_toList_lt.mp hxy) hy)
  · have hstarts : startsWith entry.2 start := by
      rw [startsWith_iff, String.isEmpty_iff.mp hempty]
      exact nil_prefix
    rw [Option.filter_some, hempty, Option.all_some, and_iff_left hstarts]
    rfl

theorem getElem?_of_lookupSymbol {value : String} {sym : Nat}
    (h : metadata.lookupSymbol value = some sym) : metadata.symbols[sym]? = some value := by
  obtain ⟨hlt, heq, -⟩ := idxOf?_eq_some_iff.mp h
  rw [getElem?_eq_getElem hlt]
  simpa using heq

theorem notMem_of_lookupSymbol {value : String} (h : metadata.lookupSymbol value = none) :
    value ∉ metadata.symbols := idxOf?_eq_none_iff.mp h

variable (hstores : metadata.Stores)
include hstores

theorem Stores.mem_iff {seriesRef : Nat} {row : LabelRow} (hrow : metadata.rowOf seriesRef = some row)
    (name value : String) : (name, value) ∈ row ↔ labelValue row name = some value :=
  (labelValue_eq_some_iff (hstores.canonical row (mem_of_getElem? hrow)) name value).symm

theorem Stores.stored_iff (name value : String) (seriesRef : Nat) :
    Stored metadata.rowOf (fun row => (name, value) ∈ row) seriesRef ↔
      Stored metadata.rowOf (fun row => labelValue row name = some value) seriesRef :=
  exists_congr fun _ => and_congr_right fun hrow => hstores.mem_iff hrow name value

theorem exactSelection_is (name value : String) :
    match metadata.exactSelection name value with
    | some postings =>
      Is postings.refs (Stored metadata.rowOf fun row => labelValue row name = some value)
    | none => ∀ seriesRef,
      ¬Stored metadata.rowOf (fun row => labelValue row name = some value) seriesRef := by
  unfold exactSelection
  have hmem : ∀ seriesRef, Stored metadata.rowOf (fun row => labelValue row name = some value)
      seriesRef → ∃ row ∈ metadata.rows, (name, value) ∈ row := by
    rintro seriesRef ⟨row, hrow, hvalue⟩
    exact ⟨row, mem_of_getElem? hrow, (hstores.mem_iff hrow name value).mpr hvalue⟩
  rcases hname : metadata.lookupSymbol name with _ | nameSym
  · intro seriesRef hstored
    obtain ⟨row, hrow, hlabel⟩ := hmem seriesRef hstored
    exact notMem_of_lookupSymbol hname (hstores.symbols row hrow _ hlabel).1
  rcases hvalue : metadata.lookupSymbol value with _ | valueSym
  · intro seriesRef hstored
    obtain ⟨row, hrow, hlabel⟩ := hmem seriesRef hstored
    exact notMem_of_lookupSymbol hvalue (hstores.symbols row hrow _ hlabel).2
  have hexact := hstores.exact nameSym valueSym name value (getElem?_of_lookupSymbol hname)
    (getElem?_of_lookupSymbol hvalue)
  change match metadata.selectExactPostings nameSym valueSym with
    | some postings => _
    | none => _
  revert hexact
  rcases metadata.selectExactPostings nameSym valueSym with _ | postings
  · intro hexact seriesRef hstored
    obtain ⟨row, hrow, hlabel⟩ := hmem seriesRef hstored
    exact hexact row hrow hlabel
  · exact fun hexact => Is.congr hexact (hstores.stored_iff name value)

omit hstores in
theorem readPostingsSet_returns {limits : QueryLimits} (selection : ExactPostings) :
    Returns limits (readPostingsSet selection) (· = selection.refs) :=
  seq (Q := fun _ => True) (update fun _ => rfl) fun _ _ => ret rfl

section Regex
variable {limits : QueryLimits} (matchProjectionNames : Bool) (matcher : CompiledLabelMatcher)

def Reached (value : String) : Prop :=
  ∃ start ∈ visitPrefixes matchProjectionNames matcher, start.all (startsWith value)

structure Visited (metadata : SegmentMetadata) (nameSym : Nat) (done : List (Nat × String))
    (state : List Nat × List Nat) : Prop where
  entries : ∀ entry ∈ done, entry ∈ metadata.labelValues nameSym
  seen : ∀ sym, sym ∈ state.1 ↔ ∃ entry ∈ done, entry.1 = sym
  matched : Is state.2 (Stored metadata.rowOf fun row => ∃ entry ∈ done,
    labelValue row matcher.name = some entry.2 ∧
      regexPatternMatches matcher entry.2 matchProjectionNames)

variable {matchProjectionNames matcher} {nameSym : Nat} {done : List (Nat × String)}
  {state : List Nat × List Nat}

omit hstores in
theorem Visited.of_mem_iff {done' : List (Nat × String)}
    (h : Visited matchProjectionNames matcher metadata nameSym done state)
    (hmem : ∀ entry, entry ∈ done ↔ entry ∈ done') :
    Visited matchProjectionNames matcher metadata nameSym done' state := by
  refine ⟨fun entry hentry => h.entries entry ((hmem entry).mpr hentry), fun sym => ?_,
    is_congr h.matched fun row => ?_⟩
  · simp [h.seen, hmem]
  · simp [hmem]

theorem Stores.entry_eq (hname : metadata.symbols[nameSym]? = some matcher.name)
    {left right : Nat × String} (hleft : left ∈ metadata.labelValues nameSym)
    (hright : right ∈ metadata.labelValues nameSym) (hsym : left.1 = right.1) : left = right := by
  have hleft := getElem?_of_lookupSymbol ((hstores.values nameSym _ hname _ _).mp hleft).1
  have hright := getElem?_of_lookupSymbol ((hstores.values nameSym _ hname _ _).mp hright).1
  rw [hsym, hright] at hleft
  exact Prod.ext hsym (Option.some.inj hleft).symm

theorem regexValueStep_returns (hname : metadata.symbols[nameSym]? = some matcher.name)
    (h : Visited matchProjectionNames matcher metadata nameSym done state) {entry : Nat × String}
    (hentry : entry ∈ metadata.labelValues nameSym) :
    Returns limits (metadata.regexValueStep matchProjectionNames matcher nameSym state entry)
      (Visited matchProjectionNames matcher metadata nameSym (done ++ [entry])) := by
  have hentries : ∀ other ∈ done ++ [entry], other ∈ metadata.labelValues nameSym :=
    forall_mem_append.mpr ⟨h.entries, forall_mem_singleton.mpr hentry⟩
  have hseen : ∀ sym, sym ∈ entry.1 :: state.1 ↔ ∃ other ∈ done ++ [entry], other.1 = sym := by
    intro sym
    rw [mem_cons, h.seen, exists_mem_concat, or_comm, eq_comm]
  unfold regexValueStep
  split
  · -- The value came by on an earlier walk.
    rename_i hold
    obtain ⟨other, hother, hsym⟩ := (h.seen entry.1).mp hold
    obtain rfl := hstores.entry_eq hname (h.entries other hother) hentry hsym
    refine ret (h.of_mem_iff fun e => ?_)
    simp only [mem_append, mem_singleton]
    exact ⟨Or.inl, fun he => he.elim id fun he => he ▸ hother⟩
  refine observeRegexValue.seq fun _ _ => ?_
  split
  · rename_i hmatch
    obtain ⟨hlookup, row, hrow, hlabel⟩ := (hstores.values nameSym _ hname _ _).mp hentry
    have hexact := hstores.exact nameSym entry.1 _ _ hname (getElem?_of_lookupSymbol hlookup)
    revert hexact
    rcases metadata.selectExactPostings nameSym entry.1 with _ | selection
    · exact fun hexact => absurd hlabel (hexact row hrow)
    intro hexact
    refine seq (readPostingsSet_returns selection) fun _ hrefs => ret ?_
    rw [hrefs]
    refine ⟨hentries, hseen, (h.matched.union hexact).congr fun seriesRef => ?_⟩
    rw [hstores.stored_iff, stored_or_iff]
    refine stored_congr fun row => ?_
    rw [exists_mem_concat, and_iff_left hmatch]
  · rename_i hmatch
    refine ret ⟨hentries, hseen, is_congr h.matched fun row => ?_⟩
    rw [exists_mem_concat]
    exact (or_iff_left fun h => hmatch h.2).symm

theorem regexPostingsSet_returns :
    Returns limits (metadata.regexPostingsSet matchProjectionNames matcher) fun refs =>
      Is refs (Stored metadata.rowOf fun row => ∃ value, labelValue row matcher.name = some value ∧
        Reached matchProjectionNames matcher value ∧
        regexPatternMatches matcher value matchProjectionNames) := by
  unfold regexPostingsSet
  rcases hlookup : metadata.lookupSymbol matcher.name with _ | nameSym
  · refine ret (Is.nil ?_)
    rintro seriesRef ⟨row, hrow, value, hvalue, -⟩
    have hlabel := (hstores.mem_iff hrow _ _).mpr hvalue
    exact notMem_of_lookupSymbol hlookup
      (hstores.symbols row (mem_of_getElem? hrow) _ hlabel).1
  have hname := getElem?_of_lookupSymbol hlookup
  refine seq (Q := Visited matchProjectionNames matcher metadata nameSym
    ((visitPrefixes matchProjectionNames matcher).flatMap
      (metadata.visitLabelValues nameSym))) ?_ fun state hstate => ret ?_
  · refine foldlM (I := fun starts state => Visited matchProjectionNames matcher metadata
      nameSym (starts.flatMap (metadata.visitLabelValues nameSym)) state) ?_ ?_
    · intro start _ starts state hstate
      rw [flatMap_append, flatMap_singleton]
      refine foldlM (I := fun entries state => Visited matchProjectionNames matcher
        metadata nameSym (starts.flatMap (metadata.visitLabelValues nameSym) ++ entries) state)
        ?_ ?_
      · intro entry hentry entries state hstate
        rw [← append_assoc]
        exact regexValueStep_returns hstores hname hstate
          ((mem_visitLabelValues hstores nameSym start entry).mp hentry).1
      · rwa [append_nil]
    · refine ⟨fun _ h => absurd h not_mem_nil, fun sym => by simp, Is.nil ?_⟩
      rintro _ ⟨row, -, entry, hentry, -⟩
      cases hentry
  refine hstate.matched.congr fun seriesRef => exists_congr fun row => and_congr_right fun hrow => ?_
  simp only [mem_flatMap, mem_visitLabelValues hstores]
  constructor
  · rintro ⟨entry, ⟨start, hstart, -, hstarts⟩, hvalue, hmatch⟩
    exact ⟨entry.2, hvalue, ⟨start, hstart, hstarts⟩, hmatch⟩
  rintro ⟨value, hvalue, ⟨start, hstart, hstarts⟩, hmatch⟩
  have hlabel := (hstores.mem_iff hrow _ _).mpr hvalue
  have hmem := mem_of_getElem? hrow
  obtain ⟨valueSym, hsym⟩ : ∃ valueSym, metadata.lookupSymbol value = some valueSym := by
    rw [← Option.ne_none_iff_exists']
    exact fun hnone => notMem_of_lookupSymbol hnone (hstores.symbols row hmem _ hlabel).2
  have hentry := (hstores.values nameSym _ hname valueSym value).mpr ⟨hsym, row, hmem, hlabel⟩
  exact ⟨(valueSym, value), ⟨start, hstart, hentry, hstarts⟩, hvalue, hmatch⟩

end Regex

section Loops
omit hstores
variable {limits : QueryLimits} {all : List Nat} {P : Nat → Prop}

theorem narrowLoop_returns {β : Type} {posting : β → Charged (Option (List Nat))}
    {next : Option (List Nat) → Charged (List Nat)} {R : List Nat → Prop} {Q : β → Nat → Prop}
    {items : List β} {candidates : Option (List Nat)}
    (hposting : ∀ item ∈ items, Returns limits (posting item) fun
      | some refs => Is refs fun seriesRef => seriesRef ∈ all ∧ Q item seriesRef
      | none => ∀ seriesRef ∈ all, Q item seriesRef)
    (hall : ∀ seriesRef, P seriesRef → seriesRef ∈ all) (hcandidates : Is (candidates.getD all) P)
    (hnext : ∀ candidates : Option (List Nat),
      Is (candidates.getD all) (fun seriesRef => P seriesRef ∧ ∀ item ∈ items, Q item seriesRef) →
      Returns limits (next candidates) R)
    (hempty : (∀ seriesRef, ¬(P seriesRef ∧ ∀ item ∈ items, Q item seriesRef)) → R []) :
    Returns limits (narrowLoop posting next items candidates) R := by
  induction items generalizing P candidates with
  | nil =>
    refine hnext _ (hcandidates.congr fun _ => ?_)
    simp
  | cons item items ih =>
    obtain ⟨hitem, hposting⟩ := forall_mem_cons.mp hposting
    simp only [forall_mem_cons, ← and_assoc] at hnext hempty
    unfold narrowLoop
    refine hitem.seq fun posting hitem => ?_
    cases posting with
    | none =>
      have hP : ∀ seriesRef, P seriesRef ∧ Q item seriesRef ↔ P seriesRef :=
        fun seriesRef => and_iff_left_of_imp fun h => hitem seriesRef (hall seriesRef h)
      simp only [hP] at hnext hempty
      exact ih hposting hall hcandidates hnext hempty
    | some positive =>
      have hnarrow : Is ((some (narrow candidates positive)).getD all)
          fun seriesRef => P seriesRef ∧ Q item seriesRef :=
        (narrow_is hcandidates hitem fun _ h => h.1).congr fun seriesRef =>
          ⟨fun h => ⟨h.1, h.2.2⟩, fun h => ⟨h.1, hall seriesRef h.1, h.2⟩⟩
      dsimp only
      split
      · rename_i hisEmpty
        rw [isEmpty_iff.mp hisEmpty]
        exact ret (hempty fun seriesRef h => hnarrow.not_of_isEmpty hisEmpty seriesRef h.1)
      · exact ih hposting (fun seriesRef h => hall seriesRef h.1) hnarrow hnext hempty

theorem exclusionLoop_returns {matchProjectionNames : Bool} {matchers : List CompiledLabelMatcher}
    {candidates : List Nat} {Q : CompiledLabelMatcher → Nat → Prop}
    (hexcluded : ∀ matcher ∈ matchers,
      Returns limits (metadata.excludedRefs matchProjectionNames matcher) fun
        | some refs => Is refs fun seriesRef => seriesRef ∈ all ∧ ¬Q matcher seriesRef
        | none => ∀ seriesRef ∈ all, Q matcher seriesRef)
    (hall : ∀ seriesRef, P seriesRef → seriesRef ∈ all) (hcandidates : Is candidates P) :
    Returns limits (metadata.exclusionLoop matchProjectionNames matchers candidates) fun refs =>
      Is refs fun seriesRef => P seriesRef ∧ ∀ matcher ∈ matchers, Q matcher seriesRef := by
  induction matchers generalizing P candidates with
  | nil =>
    refine ret (hcandidates.congr fun _ => ?_)
    simp
  | cons matcher matchers ih =>
    obtain ⟨hmatcher, hexcluded⟩ := forall_mem_cons.mp hexcluded
    simp only [forall_mem_cons, ← and_assoc]
    unfold exclusionLoop
    refine hmatcher.seq fun excluded hmatcher => ?_
    cases excluded with
    | none =>
      have hP : ∀ seriesRef, P seriesRef ∧ Q matcher seriesRef ↔ P seriesRef :=
        fun seriesRef => and_iff_left_of_imp fun h => hmatcher seriesRef (hall seriesRef h)
      simp only [hP]
      exact ih hexcluded hall hcandidates
    | some refs =>
      have hleft : Is (subtractSorted candidates refs)
          fun seriesRef => P seriesRef ∧ Q matcher seriesRef :=
        (hcandidates.subtract hmatcher).congr fun seriesRef => and_congr_right fun hP => by
          rw [not_and, not_not]
          exact ⟨fun h => h (hall seriesRef hP), fun h _ => h⟩
      dsimp only
      split
      · rename_i hisEmpty
        rw [isEmpty_iff.mp hisEmpty]
        exact ret (Is.nil fun seriesRef h => hleft.not_of_isEmpty hisEmpty seriesRef h.1)
      · exact ih hexcluded (fun seriesRef h => hall seriesRef h.1) hleft

end Loops


omit hstores in
theorem mem_allSeriesRefSet {seriesRef : Nat} :
    seriesRef ∈ metadata.allSeriesRefSet ↔ Stored metadata.rowOf (fun _ => True) seriesRef := by
  unfold allSeriesRefSet Stored rowOf
  simp [mem_range, and_true, ← Option.isSome_iff_exists, isSome_getElem?]

omit hstores in
theorem Stored.mem_all {p : LabelRow → Prop} {seriesRef : Nat}
    (h : Stored metadata.rowOf p seriesRef) : seriesRef ∈ metadata.allSeriesRefSet := by
  obtain ⟨row, hrow, -⟩ := h
  exact mem_allSeriesRefSet.mpr ⟨row, hrow, trivial⟩

omit hstores in
theorem allSeriesRefSet_is : Is metadata.allSeriesRefSet (Stored metadata.rowOf fun _ => True) :=
  ⟨pairwise_lt_range, fun _ => mem_allSeriesRefSet⟩

theorem mapM_exactSelection (pairs : List (String × String)) :
    match pairs.mapM (fun pair => metadata.exactSelection pair.1 pair.2) with
    | some selections =>
      (∀ selection ∈ selections, Sorted selection.refs ∧
        ∀ seriesRef ∈ selection.refs, seriesRef ∈ metadata.allSeriesRefSet) ∧
      ∀ seriesRef, (∀ selection ∈ selections, seriesRef ∈ selection.refs) ↔
        ∀ pair ∈ pairs, Stored metadata.rowOf
          (fun row => labelValue row pair.1 = some pair.2) seriesRef
    | none => ∀ seriesRef, ¬∀ pair ∈ pairs, Stored metadata.rowOf
        (fun row => labelValue row pair.1 = some pair.2) seriesRef := by
  induction pairs with
  | nil => simp [pure]
  | cons pair pairs ih =>
    have hfirst := exactSelection_is hstores pair.1 pair.2
    rw [mapM_cons]
    revert hfirst
    rcases metadata.exactSelection pair.1 pair.2 with _ | selection <;> intro hfirst
    · exact fun seriesRef hpairs => hfirst seriesRef (hpairs pair mem_cons_self)
    rcases hrest : pairs.mapM (fun pair => metadata.exactSelection pair.1 pair.2) with _ | rest <;>
      rw [hrest] at ih <;> simp only [Option.bind_eq_bind, Option.bind_some, hrest]
    · exact fun seriesRef hpairs => ih seriesRef (forall_mem_cons.mp hpairs).2
    obtain ⟨hsorted, hmem⟩ := ih
    refine ⟨forall_mem_cons.mpr ⟨⟨hfirst.sorted, fun seriesRef href => ?_⟩, hsorted⟩,
      fun seriesRef => ?_⟩
    · exact Stored.mem_all ((hfirst.mem_iff seriesRef).mp href)
    · rw [forall_mem_cons, forall_mem_cons, hmem, hfirst.mem_iff]

section Select
variable {limits : QueryLimits} (matchProjectionNames : Bool)

def RegexPart (row : LabelRow) : CompiledLabelMatcher → Prop
  | .regex name pattern => pattern.isMatch "" = false → ∃ value, labelValue row name = some value ∧
      Reached matchProjectionNames (.regex name pattern) value ∧
      regexReads name pattern matchProjectionNames value
  | .eq .. | .notEq .. | .notRegex .. => True

def ExclusionPart (row : LabelRow) : CompiledLabelMatcher → Prop
  | .notEq name value => value.isEmpty = false → labelValue row name ≠ some value
  | .notRegex name pattern => pattern.isMatch "" = false → ¬∃ value,
      labelValue row name = some value ∧
      Reached matchProjectionNames (.notRegex name pattern) value ∧
      regexReads name pattern matchProjectionNames value
  | .eq .. | .regex .. => True

omit hstores in
theorem stored_of_mem_all {p : LabelRow → Prop} (h : ∀ row, p row) :
    ∀ seriesRef ∈ metadata.allSeriesRefSet, Stored metadata.rowOf p seriesRef := by
  intro seriesRef hmem
  obtain ⟨row, hrow, -⟩ := mem_allSeriesRefSet.mp hmem
  exact ⟨row, hrow, h row⟩

theorem requiredRegexRefs_returns (matcher : CompiledLabelMatcher) :
    Returns limits (metadata.requiredRegexRefs matchProjectionNames matcher) fun
      | some refs => Is refs fun seriesRef => seriesRef ∈ metadata.allSeriesRefSet ∧
          Stored metadata.rowOf (RegexPart matchProjectionNames · matcher) seriesRef
      | none => ∀ seriesRef ∈ metadata.allSeriesRefSet,
          Stored metadata.rowOf (RegexPart matchProjectionNames · matcher) seriesRef := by
  cases matcher with
  | eq | notEq | notRegex => exact ret (stored_of_mem_all fun _ => trivial)
  | regex name pattern =>
    rw [requiredRegexRefs]
    by_cases hscan : pattern.isMatch ""
    · rw [if_pos hscan]
      exact ret (stored_of_mem_all fun _ hnot => absurd hscan (Bool.eq_false_iff.mp hnot))
    rw [if_neg hscan]
    refine (regexPostingsSet_returns hstores).map fun refs hrefs => hrefs.congr fun seriesRef => ?_
    rw [and_iff_right_of_imp Stored.mem_all]
    exact stored_congr fun row => ⟨fun h _ => h, fun h => h (Bool.eq_false_iff.mpr hscan)⟩

theorem excludedRefs_returns (matcher : CompiledLabelMatcher) :
    Returns limits (metadata.excludedRefs matchProjectionNames matcher) fun
      | some refs => Is refs fun seriesRef => seriesRef ∈ metadata.allSeriesRefSet ∧
          ¬Stored metadata.rowOf (ExclusionPart matchProjectionNames · matcher) seriesRef
      | none => ∀ seriesRef ∈ metadata.allSeriesRefSet,
          Stored metadata.rowOf (ExclusionPart matchProjectionNames · matcher) seriesRef := by
  have htaken : ∀ {refs : List Nat} {p : LabelRow → Prop}, Is refs (Stored metadata.rowOf p) →
      (∀ row, p row ↔ ¬ExclusionPart matchProjectionNames row matcher) →
      Is refs fun seriesRef => seriesRef ∈ metadata.allSeriesRefSet ∧
        ¬Stored metadata.rowOf (ExclusionPart matchProjectionNames · matcher) seriesRef := by
    intro refs p hrefs hp
    refine hrefs.congr fun seriesRef => ?_
    rw [mem_allSeriesRefSet, stored_and_not_iff]
    exact stored_congr fun row => by rw [hp, true_and]
  cases matcher with
  | eq | regex => exact ret (stored_of_mem_all fun _ => trivial)
  | notEq name value =>
    rw [excludedRefs]
    by_cases hscan : value.isEmpty
    · rw [if_pos hscan]
      exact ret (stored_of_mem_all fun _ hnot => absurd hscan (Bool.eq_false_iff.mp hnot))
    rw [if_neg hscan]
    have hscan := Bool.eq_false_iff.mpr hscan
    have hselection := exactSelection_is hstores name value
    revert hselection
    rcases metadata.exactSelection name value with _ | selection
    · intro hnone
      refine ret fun seriesRef hmem => ?_
      obtain ⟨row, hrow, -⟩ := mem_allSeriesRefSet.mp hmem
      exact ⟨row, hrow, fun _ hvalue => hnone seriesRef ⟨row, hrow, hvalue⟩⟩
    intro hselection
    refine (readPostingsSet_returns selection).map fun refs hrefs => ?_
    rw [hrefs]
    refine htaken hselection fun row => ?_
    simp [ExclusionPart, hscan]
  | notRegex name pattern =>
    rw [excludedRefs]
    by_cases hscan : pattern.isMatch ""
    · rw [if_pos hscan]
      exact ret (stored_of_mem_all fun _ hnot => absurd hscan (Bool.eq_false_iff.mp hnot))
    rw [if_neg hscan]
    have hscan := Bool.eq_false_iff.mpr hscan
    refine (regexPostingsSet_returns hstores).map fun refs hrefs => htaken hrefs fun row => ?_
    simp only [ExclusionPart, hscan, true_imp_iff, not_not, regexPatternMatches,
      CompiledLabelMatcher.matchesValue, Bool.not_not]
    rfl

theorem facadeCandidateRefs_returns (matchers : List CompiledLabelMatcher) :
    Returns limits (metadata.facadeCandidateRefs matchProjectionNames matchers) fun result =>
      Is (match result with | .ok refs => refs | .error _ => []) (Stored metadata.rowOf fun row =>
        (∀ pair ∈ matchers.filterMap requiredEquality, labelValue row pair.1 = some pair.2) ∧
        (∀ matcher ∈ matchers, RegexPart matchProjectionNames row matcher) ∧
        ∀ matcher ∈ matchers, ExclusionPart matchProjectionNames row matcher) := by
  have hpairs := mapM_exactSelection hstores (matchers.filterMap requiredEquality)
  unfold facadeCandidateRefs
  split
  · rename_i hnone
    rw [hnone] at hpairs
    refine ret (Is.nil fun seriesRef => ?_)
    rintro ⟨row, hrow, hequal, -⟩
    exact hpairs seriesRef fun pair hpair => ⟨row, hrow, hequal pair hpair⟩
  rename_i selections hselections
  rw [hselections] at hpairs
  obtain ⟨hsorted, hmem⟩ := hpairs
  refine seq (Q := fun _ => True) (update fun _ => rfl) fun _ _ => ?_
  refine map (Q := fun refs => Is refs fun seriesRef =>
    ((Stored metadata.rowOf (fun _ => True) seriesRef ∧
      ∀ selection ∈ selections.mergeSort fun left right =>
        left.cardinalityKey ≤ right.cardinalityKey, seriesRef ∈ selection.refs) ∧
      ∀ matcher ∈ matchers, Stored metadata.rowOf (RegexPart matchProjectionNames · matcher)
        seriesRef) ∧
      ∀ matcher ∈ matchers, Stored metadata.rowOf (ExclusionPart matchProjectionNames · matcher)
        seriesRef) ?_ fun refs hrefs => ?_
  · have hall : Is ((none : Option (List Nat)).getD metadata.allSeriesRefSet)
        (Stored metadata.rowOf fun _ => True) := allSeriesRefSet_is
    refine narrowLoop_returns (Q := fun selection seriesRef => seriesRef ∈ selection.refs)
      (fun selection hselection => ?_) (fun _ => mem_allSeriesRefSet.mpr) hall
      (fun candidates hcandidates => ?_) fun hnone => ?_
    · obtain ⟨hselectionSorted, hselectionAll⟩ := hsorted selection (mem_mergeSort.mp hselection)
      refine (readPostingsSet_returns selection).map fun refs hrefs => ?_
      rw [hrefs]
      exact ⟨hselectionSorted, fun seriesRef => (and_iff_right_of_imp (hselectionAll seriesRef)).symm⟩
    · refine narrowLoop_returns (fun matcher _ => requiredRegexRefs_returns hstores _ matcher)
        (fun _ h => mem_allSeriesRefSet.mpr h.1) hcandidates (fun candidates hcandidates => ?_)
        fun hnone => ?_
      · refine (exclusionLoop_returns (fun matcher _ => excludedRefs_returns hstores _ matcher)
          (fun _ h => mem_allSeriesRefSet.mpr h.1.1) hcandidates).seq fun refs hrefs => ?_
        exact (observeCandidateSeriesRefs _).seq fun _ _ => ret hrefs
      · exact Is.nil fun seriesRef h => hnone seriesRef h.1
    · exact Is.nil fun seriesRef h => hnone seriesRef h.1.1
  refine hrefs.congr fun seriesRef => ?_
  simp only [mem_mergeSort, hmem]
  constructor
  · rintro ⟨⟨⟨⟨row, hrow, -⟩, hequal⟩, hregex⟩, hexclusion⟩
    refine ⟨row, hrow, fun pair hpair => ?_, fun matcher hmatcher => ?_, fun matcher hmatcher => ?_⟩
    · exact (stored_iff_of_row hrow).mp (hequal pair hpair)
    · exact (stored_iff_of_row hrow).mp (hregex matcher hmatcher)
    · exact (stored_iff_of_row hrow).mp (hexclusion matcher hmatcher)
  · rintro ⟨row, hrow, hequal, hregex, hexclusion⟩
    exact ⟨⟨⟨⟨row, hrow, trivial⟩, fun pair hpair => ⟨row, hrow, hequal pair hpair⟩⟩,
      fun matcher hmatcher => ⟨row, hrow, hregex matcher hmatcher⟩⟩,
      fun matcher hmatcher => ⟨row, hrow, hexclusion matcher hmatcher⟩⟩

omit hstores in
/-- What a sealed segment asks of a row: the matcher's own check, and that the walk of a regex that
needs the label comes by its value. -/
def AcceptsSealed (row : LabelRow) (matcher : CompiledLabelMatcher) : Prop :=
  matcher.matchesValue ((labelValue row matcher.name).getD "") matchProjectionNames = true ∧
    match matcher with
    | .regex name pattern => pattern.isMatch "" = false →
        ∃ value, labelValue row name = some value ∧
          Reached matchProjectionNames (.regex name pattern) value
    | .eq .. | .notEq .. | .notRegex .. => True

omit hstores in
theorem acceptsSealed_iff_parts (row : LabelRow) (matchers : List CompiledLabelMatcher) :
    (∀ matcher ∈ matchers, AcceptsSealed matchProjectionNames row matcher) ↔
      ((∀ pair ∈ matchers.filterMap requiredEquality, labelValue row pair.1 = some pair.2) ∧
        (∀ matcher ∈ matchers, RegexPart matchProjectionNames row matcher) ∧
        ∀ matcher ∈ matchers, ExclusionPart matchProjectionNames row matcher) ∧
      labelsMatchFacade row matchers matchProjectionNames = true := by
  have hequality : (∀ pair ∈ matchers.filterMap requiredEquality,
      labelValue row pair.1 = some pair.2) ↔ ∀ matcher ∈ matchers, ∀ pair,
        requiredEquality matcher = some pair → labelValue row pair.1 = some pair.2 := by
    simp only [mem_filterMap, forall_exists_index, and_imp]
    exact ⟨fun h matcher hmatcher pair hpair => h pair matcher hmatcher hpair,
      fun h pair matcher hmatcher hpair => h matcher hmatcher pair hpair⟩
  rw [hequality, labelsMatchFacade, all_eq_true, ← forall₂_and, ← forall₂_and, ← forall₂_and]
  refine forall₂_congr fun matcher _ => ?_
  unfold AcceptsSealed
  refine ⟨fun h => ⟨⟨fun pair hpair => ?_, ?_, ?_⟩, h.1⟩, fun h => ⟨h.2, ?_⟩⟩
  · -- A value that is not empty is not the default of a missing label.
    cases matcher with
    | eq name value =>
      rw [requiredEquality] at hpair
      by_cases hvalue : value.isEmpty
      · rw [if_pos hvalue] at hpair
        cases hpair
      rw [if_neg hvalue] at hpair
      cases hpair
      have hget := of_decide_eq_true h.1
      rcases hlabel : labelValue row name with _ | found
      · rw [CompiledLabelMatcher.name, hlabel] at hget
        exact absurd (String.isEmpty_iff.mpr hget.symm) hvalue
      · rw [CompiledLabelMatcher.name, hlabel] at hget
        exact congrArg some hget
    | notEq | regex | notRegex => cases hpair
  · cases matcher with
    | eq | notEq | notRegex => trivial
    | regex name pattern =>
      intro hscan
      obtain ⟨value, hvalue, hreached⟩ := h.2 hscan
      refine ⟨value, hvalue, hreached, ?_⟩
      have hmatch := h.1
      rwa [CompiledLabelMatcher.name, hvalue] at hmatch
  · cases matcher with
    | eq | regex => trivial
    | notEq name value =>
      intro _ hvalue
      refine of_decide_eq_true h.1 ?_
      rw [CompiledLabelMatcher.name, hvalue]
      rfl
    | notRegex name pattern =>
      rintro - ⟨value, hvalue, -, hreads⟩
      have hmatch := h.1
      rw [CompiledLabelMatcher.name, hvalue] at hmatch
      rw [CompiledLabelMatcher.matchesValue, Option.getD_some, hreads] at hmatch
      cases hmatch
  cases matcher with
  | eq | notEq | notRegex => trivial
  | regex name pattern =>
    intro hscan
    obtain ⟨value, hvalue, hreached, -⟩ := h.1.2.1 hscan
    exact ⟨value, hvalue, hreached⟩

theorem selectedRefs_returns {regexNew : RegexSyntax} {matchers : List NormalizedMatcher}
    {compiled : List CompiledLabelMatcher}
    (hcompiled : compileLabelMatchers regexNew matchers = .ok compiled) :
    Returns limits (metadata.selectedRefs matchProjectionNames regexNew matchers) fun refs =>
      Is refs (Stored metadata.rowOf fun row =>
        ∀ matcher ∈ compiled, AcceptsSealed matchProjectionNames row matcher) := by
  unfold selectedRefs
  rw [hcompiled]
  refine seq (Q := (· = compiled)) (ret rfl) fun _ heq => ?_
  rw [heq]
  refine (facadeCandidateRefs_returns hstores matchProjectionNames compiled).seq
    fun result hresult => ?_
  simp only [acceptsSealed_iff_parts]
  rcases result with ⟨⟩ | candidates
  · refine seq (Q := fun _ => True) (update fun _ => rfl) fun _ _ => ret ?_
    refine Is.nil fun seriesRef hstored => ?_
    exact not_mem_nil ((hresult.mem_iff seriesRef).mpr (stored_and_iff.mpr hstored).1)
  · refine ret (hresult.filter.congr fun seriesRef => ?_)
    rw [Option.any_eq_true]
    exact stored_and_iff

end Select

omit hstores

variable (rows : List LabelRow)

def symbolsOf : List String :=
  dedup ((rows.flatMap fun row => row.flatMap fun label => [label.1, label.2]).mergeSort (· ≤ ·))

def refsOf (name value : String) : List Nat :=
  (range rows.length).filter fun seriesRef => rows[seriesRef]?.any ((name, value) ∈ ·)

def valuesOf (name : String) : List String :=
  dedup ((rows.flatMap fun row => (row.filter (·.1 = name)).map (·.2)).mergeSort (· ≤ ·))

/-- Only pairs with a series have a record. -/
def postingsOf (name value : String) : Option ExactPostings :=
  let refs := refsOf rows name value
  if refs.isEmpty then none else some ⟨4 + 4 * refs.length, 4 + 4 * refs.length, refs⟩

def ofRows : SegmentMetadata where
  symbols := symbolsOf rows
  selectExactPostings nameSym valueSym := do
    let name ← (symbolsOf rows)[nameSym]?
    let value ← (symbolsOf rows)[valueSym]?
    postingsOf rows name value
  labelValues nameSym :=
    match (symbolsOf rows)[nameSym]? with
    | none => []
    | some name => (valuesOf rows name).filterMap fun value =>
      ((symbolsOf rows).idxOf? value).map (·, value)
  rows := rows

variable {rows : List LabelRow}

theorem mem_symbolsOf {row : LabelRow} {label : String × String} (hrow : row ∈ rows)
    (hlabel : label ∈ row) : label.1 ∈ symbolsOf rows ∧ label.2 ∈ symbolsOf rows := by
  unfold symbolsOf
  simp only [mem_dedup_mergeSort, mem_flatMap]
  exact ⟨⟨row, hrow, label, hlabel, by simp⟩, ⟨row, hrow, label, hlabel, by simp⟩⟩

theorem mem_valuesOf {name value : String} :
    value ∈ valuesOf rows name ↔ ∃ row ∈ rows, (name, value) ∈ row := by
  unfold valuesOf
  simp only [mem_dedup_mergeSort, mem_flatMap, mem_map, mem_filter,
    decide_eq_true_eq]
  refine exists_congr fun row => and_congr_right fun _ => ?_
  constructor
  · rintro ⟨label, ⟨hlabel, rfl⟩, rfl⟩
    exact hlabel
  · exact fun hlabel => ⟨(name, value), ⟨hlabel, rfl⟩, rfl⟩

theorem refsOf_is (rows : List LabelRow) (name value : String) :
    Is (refsOf rows name value) (Stored (ofRows rows).rowOf fun row => (name, value) ∈ row) := by
  have hall : Is (ofRows rows).allSeriesRefSet (Stored (ofRows rows).rowOf fun _ => True) :=
    allSeriesRefSet_is
  refine hall.filter.congr fun seriesRef => ?_
  rw [Option.any_eq_true]
  simp only [decide_eq_true_iff]
  exact stored_and_iff.trans (stored_congr fun row => and_iff_right trivial)

theorem postingsOf_is (rows : List LabelRow) (name value : String) :
    match postingsOf rows name value with
    | some postings =>
      Is postings.refs (Stored (ofRows rows).rowOf fun row => (name, value) ∈ row)
    | none => ∀ row ∈ rows, (name, value) ∉ row := by
  have hrefs := refsOf_is rows name value
  unfold postingsOf
  by_cases hempty : (refsOf rows name value).isEmpty
  · rw [if_pos hempty]
    intro row hrow hlabel
    obtain ⟨seriesRef, href⟩ := mem_iff_getElem?.mp hrow
    exact hrefs.not_of_isEmpty hempty seriesRef ⟨row, href, hlabel⟩
  · rw [if_neg hempty]
    exact hrefs

theorem ofRows_stores
    (hcanonical : ∀ row ∈ rows, KeepLast.Increasing Prod.fst row) : (ofRows rows).Stores where
  canonical := hcanonical
  symbols := fun row hrow label hlabel => mem_symbolsOf hrow hlabel
  exact := by
    intro nameSym valueSym name value hname hvalue
    have hselect : (ofRows rows).selectExactPostings nameSym valueSym =
        postingsOf rows name value := by
      change ((ofRows rows).symbols[nameSym]?.bind fun name =>
        (ofRows rows).symbols[valueSym]?.bind fun value => postingsOf rows name value) = _
      rw [hname, hvalue]
      rfl
    rw [hselect]
    exact postingsOf_is rows name value
  values := by
    intro nameSym name hname valueSym value
    have hname : (symbolsOf rows)[nameSym]? = some name := hname
    simp only [ofRows, hname, mem_filterMap, mem_valuesOf, Option.map_eq_some_iff,
      Prod.mk.injEq, lookupSymbol]
    constructor
    · rintro ⟨found, hfound, sym, hsym, rfl, rfl⟩
      exact ⟨hsym, hfound⟩
    · exact fun ⟨hsym, hvalue⟩ => ⟨value, hvalue, valueSym, hsym, rfl, rfl⟩
  ascending := by
    intro nameSym
    dsimp only [ofRows]
    rcases (symbolsOf rows)[nameSym]? with _ | name
    · exact List.Pairwise.nil
    refine pairwise_filterMap.mpr ((sorted_dedup_mergeSort _).imp ?_)
    intro a b hab x hx y hy
    obtain ⟨_, _, rfl⟩ := Option.map_eq_some_iff.mp hx
    obtain ⟨_, _, rfl⟩ := Option.map_eq_some_iff.mp hy
    exact hab

end SegmentMetadata

end Chronoxide
