import Chronoxide.Collections.KeepLast
import Chronoxide.Collections.KeyedList
import Chronoxide.Promql.Normalize

/-! Label matchers (`segment/query_types/selector.rs`, `segment/query_helpers.rs`). The regex engine
is a parameter: a pattern is refused or stands for a predicate on strings. -/

namespace Chronoxide

abbrev LabelRow := List (String × String)

inductive NormalizedMatcher
  | eq (name value : String)
  | notEq (name value : String)
  | regex (name pattern : String)
  | notRegex (name pattern : String)
  deriving DecidableEq, Repr

structure Regex where
  asStr : String
  isMatch : String → Bool

/-- What `Regex::new` makes of the text of a pattern. -/
abbrev RegexSyntax := String → Except String (String → Bool)

inductive CompiledLabelMatcher
  | eq (name value : String)
  | notEq (name value : String)
  | regex (name : String) (pattern : Regex)
  | notRegex (name : String) (pattern : Regex)

section
variable (regexNew : RegexSyntax)

def compilePromqlRegex (pattern : String) : Except String Regex :=
  (regexNew ("^(?:" ++ pattern ++ ")$")).map (Regex.mk ("^(?:" ++ pattern ++ ")$"))

def compileLabelMatcher : NormalizedMatcher → Except IoError CompiledLabelMatcher
  | .eq name value => .ok (.eq name value)
  | .notEq name value => .ok (.notEq name value)
  | .regex name pattern =>
    ((compilePromqlRegex regexNew pattern).map (.regex name)).mapError invalidInput
  | .notRegex name pattern =>
    ((compilePromqlRegex regexNew pattern).map (.notRegex name)).mapError invalidInput

def compileLabelMatchers (matchers : List NormalizedMatcher) :
    Except IoError (List CompiledLabelMatcher) :=
  matchers.mapM (compileLabelMatcher regexNew)

end

def promqlProjectionSuffixes : List String := ["_bucket", "_count", "_sum"]

def promqlProjectionMetricNameMatches (metricName : String) (regex : Regex) : Bool :=
  regex.isMatch metricName ||
    promqlProjectionSuffixes.any fun suffix => regex.isMatch (metricName ++ suffix)

/-- How a pattern reads a value of a label: a metric name may stand for its projections. -/
def regexReads (name : String) (pattern : Regex) (matchProjectionNames : Bool) (value : String) :
    Bool :=
  if matchProjectionNames && name = metricNameLabel then
    promqlProjectionMetricNameMatches value pattern
  else pattern.isMatch value

namespace CompiledLabelMatcher

def name : CompiledLabelMatcher → String
  | .eq name _ | .notEq name _ | .regex name _ | .notRegex name _ => name

def requiresMissingLabelScan : CompiledLabelMatcher → Bool
  | .eq _ value | .notEq _ value => value.isEmpty
  | .regex _ pattern | .notRegex _ pattern => pattern.isMatch ""

def matchesValue (value : String) (matchProjectionNames : Bool) : CompiledLabelMatcher → Bool
  | .eq _ expected => value = expected
  | .notEq _ expected => value ≠ expected
  | .regex name pattern => regexReads name pattern matchProjectionNames value
  | .notRegex name pattern => !regexReads name pattern matchProjectionNames value

end CompiledLabelMatcher

def labelValue (labels : LabelRow) (name : String) : Option String :=
  labels.lookup name

def labelsMatchFacade (labels : LabelRow) (matchers : List CompiledLabelMatcher)
    (matchProjectionNames : Bool) : Bool :=
  matchers.all fun matcher =>
    matcher.matchesValue ((labelValue labels matcher.name).getD "") matchProjectionNames

theorem labelValue_eq_some_iff {row : LabelRow} (hrow : KeepLast.Increasing Prod.fst row)
    (name value : String) : labelValue row name = some value ↔ (name, value) ∈ row := by
  induction row with
  | nil => simp [labelValue]
  | cons label row ih =>
    obtain ⟨hhead, htail⟩ := List.pairwise_cons.mp hrow
    unfold labelValue
    rw [KeyedList.lookup_cons_ite, List.mem_cons]
    by_cases hname : name = label.1
    · have hnot : (name, value) ∉ row := fun hmem => (hhead _ hmem).ne hname.symm
      rw [if_pos hname, or_iff_left hnot, Option.some_inj, Prod.ext_iff]
      exact ⟨fun hvalue => ⟨hname, hvalue.symm⟩, fun h => h.2.symm⟩
    · rw [if_neg hname, or_iff_right fun h => hname (congrArg Prod.fst h)]
      exact ih htail

namespace CompiledLabelMatcher

/-- What a matcher asks of a row. One that the empty value could pass reads a missing label as
empty; another needs the label, or needs that no such label is there. -/
def Accepts (matchProjectionNames : Bool) (row : LabelRow) (matcher : CompiledLabelMatcher) :
    Prop :=
  if matcher.requiresMissingLabelScan then
    matcher.matchesValue ((labelValue row matcher.name).getD "") matchProjectionNames = true
  else match matcher with
    | .eq name value => labelValue row name = some value
    | .notEq name value => labelValue row name ≠ some value
    | .regex name pattern =>
      ∃ value, labelValue row name = some value ∧ regexReads name pattern matchProjectionNames value
    | .notRegex name pattern =>
      ∀ value, labelValue row name = some value → ¬pattern.isMatch value

def isPositive : CompiledLabelMatcher → Bool
  | .eq .. | .regex .. => true
  | .notEq .. | .notRegex .. => false

end CompiledLabelMatcher

inductive Compiles (regexNew : RegexSyntax) : NormalizedMatcher → CompiledLabelMatcher → Prop
  | eq (name value : String) : Compiles regexNew (.eq name value) (.eq name value)
  | notEq (name value : String) : Compiles regexNew (.notEq name value) (.notEq name value)
  | regex (name : String) {pattern : String} {regex : Regex}
      (h : compilePromqlRegex regexNew pattern = .ok regex) :
      Compiles regexNew (.regex name pattern) (.regex name regex)
  | notRegex (name : String) {pattern : String} {regex : Regex}
      (h : compilePromqlRegex regexNew pattern = .ok regex) :
      Compiles regexNew (.notRegex name pattern) (.notRegex name regex)

theorem exists_of_mapError_map_ok {α : Type} {result : Except String Regex} {f : Regex → α} {a : α}
    (h : (result.map f).mapError invalidInput = .ok a) : ∃ regex, result = .ok regex ∧ f regex = a := by
  cases result with
  | error e => cases h
  | ok regex => exact ⟨regex, rfl, Except.ok.inj h⟩

theorem compiles_of_ok {regexNew : RegexSyntax} {matcher : NormalizedMatcher}
    {compiled : CompiledLabelMatcher} (h : compileLabelMatcher regexNew matcher = .ok compiled) :
    Compiles regexNew matcher compiled := by
  cases matcher with
  | eq name value =>
    cases h
    exact .eq name value
  | notEq name value =>
    cases h
    exact .notEq name value
  | regex name pattern =>
    obtain ⟨regex, hregex, rfl⟩ := exists_of_mapError_map_ok h
    exact .regex name hregex
  | notRegex name pattern =>
    obtain ⟨regex, hregex, rfl⟩ := exists_of_mapError_map_ok h
    exact .notRegex name hregex

theorem forall₂_compiles {regexNew : RegexSyntax} {matchers : List NormalizedMatcher}
    {compiled : List CompiledLabelMatcher}
    (h : compileLabelMatchers regexNew matchers = .ok compiled) :
    List.Forall₂ (Compiles regexNew) matchers compiled := by
  induction matchers generalizing compiled with
  | nil =>
    cases h
    exact .nil
  | cons matcher matchers ih =>
    rw [compileLabelMatchers, List.mapM_cons, ← compileLabelMatchers] at h
    rcases hfirst : compileLabelMatcher regexNew matcher with e | first
    · rw [hfirst] at h
      cases h
    rcases hrest : compileLabelMatchers regexNew matchers with e | rest
    · rw [hfirst, hrest] at h
      cases h
    · rw [hfirst, hrest] at h
      cases h
      exact .cons (compiles_of_ok hfirst) (ih hrest)

end Chronoxide
