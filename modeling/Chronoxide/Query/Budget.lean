import Chronoxide.Head.Block
import Chronoxide.Program.Fallible
import Chronoxide.Program.Faults

/-! What a query may use (`segment/query_types/limits.rs`): counters, and the limits on some of
them. -/

namespace Chronoxide
open Fallible

inductive QueryLimit
  | matchedSeries
  | regexValuesExamined
  deriving DecidableEq, Repr

def QueryLimit.asStr : QueryLimit → String
  | .matchedSeries => "matched_series"
  | .regexValuesExamined => "regex_values_examined"

structure QueryLimits where
  maxMatchedSeries : Option Nat
  maxRegexValuesExamined : Option Nat
  deriving DecidableEq, Repr

def QueryLimits.unlimited : QueryLimits := ⟨none, none⟩

def QueryLimits.max (limits : QueryLimits) : QueryLimit → Option Nat
  | .matchedSeries => limits.maxMatchedSeries
  | .regexValuesExamined => limits.maxRegexValuesExamined

structure QueryStats where
  segmentsSkippedByMissingEquality : Nat
  segmentsQueried : Nat
  regexValuesExamined : Nat
  indexPostingsReads : Nat
  indexPostingsBytesRead : Nat
  deriving DecidableEq, Repr

structure QueryBudget where
  limits : QueryLimits
  stats : QueryStats
  deriving DecidableEq, Repr

structure QueryLimitExceeded where
  limit : QueryLimit
  max : Nat
  deriving DecidableEq, Repr

def QueryLimitExceeded.display (exceeded : QueryLimitExceeded) : String :=
  "query exceeded " ++ exceeded.limit.asStr ++ " limit of " ++ toString exceeded.max

def limitExceededIo (exceeded : QueryLimitExceeded) : IoError :=
  ⟨.quotaExceeded, exceeded.display⟩

abbrev Charged (α : Type) := Program QueryBudget IoError α

namespace QueryBudget

def new (limits : QueryLimits) : QueryBudget := ⟨limits, ⟨0, 0, 0, 0, 0⟩⟩

def unlimited : QueryBudget := new QueryLimits.unlimited

def addU64 (a b : Nat) : Nat := min (a + b) (counterMax 64)

def checkedAdd (budget : QueryBudget) (limit : QueryLimit) (current increment : Nat) :
    Except IoError Nat :=
  let next := addU64 current increment
  match budget.limits.max limit with
  | some max => if max < next then .error (limitExceededIo ⟨limit, max⟩) else .ok next
  | none => .ok next

def observeRegexValue : Charged Unit := do
  let budget ← get
  match budget.checkedAdd .regexValuesExamined budget.stats.regexValuesExamined 1 with
  | .error e => throw e
  | .ok next => modify fun budget =>
    { budget with stats := { budget.stats with regexValuesExamined := next } }

def observeCandidateSeriesRefs (count : Nat) : Charged Unit := do
  let budget ← get
  match budget.limits.maxMatchedSeries with
  | some max =>
    if max < count then throw (limitExceededIo ⟨.matchedSeries, max⟩) else pure ()
  | none => pure ()

def observeIndexPostingsRead (bytes : Nat) : Charged Unit :=
  modify fun budget => { budget with stats := { budget.stats with
    indexPostingsReads := addU64 budget.stats.indexPostingsReads 1
    indexPostingsBytesRead := addU64 budget.stats.indexPostingsBytesRead bytes } }

def observeSegmentQueried : Charged Unit :=
  modify fun budget => { budget with stats := { budget.stats with
    segmentsQueried := addU64 budget.stats.segmentsQueried 1 } }

def observeSegmentSkippedByMissingEquality : Charged Unit :=
  modify fun budget => { budget with stats := { budget.stats with
    segmentsSkippedByMissingEquality :=
      addU64 budget.stats.segmentsSkippedByMissingEquality 1 } }

end QueryBudget

def QueryLimits.Tripped (limits : QueryLimits) (e : IoError) : Prop :=
  ∃ limit max, limits.max limit = some max ∧ e = limitExceededIo ⟨limit, max⟩

theorem QueryLimits.not_tripped_unlimited (e : IoError) : ¬QueryLimits.unlimited.Tripped e := by
  rintro ⟨limit, max, hmax, -⟩
  cases limit <;> cases hmax

/-- Under these limits the code trips one of them or returns what `Q` says. -/
def Returns {α : Type} (limits : QueryLimits) (m : Charged α) (Q : α → Prop) : Prop :=
  Triple (·.limits = limits) m (fun a budget => Q a ∧ budget.limits = limits)
    fun e _ => limits.Tripped e

namespace Returns

variable {α β : Type} {limits : QueryLimits} {m : Charged α} {Q Q' : α → Prop}

theorem ret {a : α} (h : Q a) : Returns limits (pure a) Q :=
  (Triple.ret a).pre fun _ hs => ⟨h, hs⟩

theorem seq {f : α → Charged β} {R : β → Prop} (hm : Returns limits m Q)
    (hf : ∀ a, Q a → Returns limits (f a) R) : Returns limits (m >>= f) R := by
  refine Triple.seq hm fun a budget hbudget => ?_
  exact hf a hbudget.1 budget hbudget.2

theorem exists_ok {budget : QueryBudget} (hm : Returns budget.limits m Q)
    (hfits : ∀ e, (m.exec budget).1 = .error e → ¬budget.limits.Tripped e) :
    ∃ a, (m.exec budget).1 = .ok a ∧ Q a := by
  have hrun := hm budget rfl
  revert hrun hfits
  rcases m.exec budget with ⟨e | a, budget'⟩
  · intro hfits htripped
    exact absurd htripped (hfits e rfl)
  · intro _ hrun
    exact ⟨a, rfl, hrun.1⟩

theorem mono (hm : Returns limits m Q) (h : ∀ a, Q a → Q' a) : Returns limits m Q' :=
  Triple.conseq hm (fun _ hs => hs) (fun a _ hs => ⟨h a hs.1, hs.2⟩) fun _ _ h => h

theorem map {f : α → β} {R : β → Prop} (hm : Returns limits m Q) (h : ∀ a, Q a → R (f a)) :
    Returns limits (f <$> m) R := by
  exact hm.seq fun a ha => ret (h a ha)

theorem foldlM {xs : List β} {f : α → β → Charged α} {I : List β → α → Prop} {a : α}
    (hstep : ∀ x ∈ xs, ∀ ys a, I ys a → Returns limits (f a x) (I (ys ++ [x]))) (h : I [] a) :
    Returns limits (xs.foldlM f a) (I xs) := by
  have hloop := Triple.foldlM (I := fun ys a budget => I ys a ∧ budget.limits = limits)
    (fun x hx ys a budget hbudget => hstep x hx ys a hbudget.1 budget hbudget.2) [] a
  exact hloop.pre fun _ hlimits => ⟨h, hlimits⟩

theorem forM {xs : List β} {f : β → Charged PUnit}
    (h : ∀ x ∈ xs, Returns limits (f x) fun _ => True) :
    Returns limits (xs.forM f) fun _ => True := by
  induction xs with
  | nil => exact ret trivial
  | cons x xs ih =>
    obtain ⟨hx, hxs⟩ := List.forall_mem_cons.mp h
    exact hx.seq fun _ _ => ih hxs

theorem update {f : QueryBudget → QueryBudget} (h : ∀ budget, (f budget).limits = budget.limits) :
    Returns limits (modify f : Charged PUnit) fun _ => True := by
  intro budget hbudget
  exact ⟨trivial, (h budget).trans hbudget⟩

theorem ofExcept {x : Except IoError α} (h : Faults.Gives (fun _ => False) Q x) :
    Returns limits (MonadExcept.ofExcept x) Q := by
  cases x with
  | ok a => exact ret h
  | error e => exact h.elim

theorem observeRegexValue : Returns limits QueryBudget.observeRegexValue fun _ => True := by
  refine Triple.read fun _ hbudget => ?_
  rintro budget rfl
  rcases hadd : budget.checkedAdd .regexValuesExamined budget.stats.regexValuesExamined 1
    with e | next
  · change limits.Tripped e
    unfold QueryBudget.checkedAdd at hadd
    rw [hbudget] at hadd
    rcases hmax : limits.max .regexValuesExamined with _ | max
    · rw [hmax] at hadd
      cases hadd
    simp only [hmax] at hadd
    split at hadd
    · exact ⟨_, _, hmax, (Except.error.inj hadd).symm⟩
    · cases hadd
  · exact ⟨trivial, hbudget⟩

theorem observeCandidateSeriesRefs (count : Nat) :
    Returns limits (QueryBudget.observeCandidateSeriesRefs count) fun _ => True := by
  refine Triple.read fun _ hbudget => ?_
  rw [hbudget]
  rintro budget rfl
  rcases hmax : limits.maxMatchedSeries with _ | max
  · exact ⟨trivial, hbudget⟩
  dsimp only
  split
  · exact ⟨.matchedSeries, max, hmax, rfl⟩
  · exact ⟨trivial, hbudget⟩

end Returns

end Chronoxide
