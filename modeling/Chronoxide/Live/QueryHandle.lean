import Mathlib.Data.UInt
import Chronoxide.Program.Machine

/-! The handle through which queries reach the published view (`storage/live_view.rs`). Every
operation holds the lock of the state, so an interleaving is a list of operations. Views are shared
and do not change but for their publication time, which is set once; they are named by references.
Instants and durations count nanoseconds. -/

namespace Chronoxide

inductive ManifestCut
  | absent
  | present (fileName : String) (validatedOffset : UInt64) (prefixSha256 : List UInt8)
  deriving DecidableEq, Repr

inductive LiveReadiness
  | uninitialized
  | ready
  | dirtySince (at_ : Nat)
  | failed (error : String)
  deriving DecidableEq, Repr

structure LiveQueryView (T : Type) where
  generation : UInt64
  manifestCut : ManifestCut
  visibleMessageSequence : UInt64
  catalogRevision : UInt64
  payload : T

structure LiveCommitBase where
  statusEpoch : UInt64
  nextGeneration : UInt64
  deriving DecidableEq, Repr

inductive LiveViewError
  | uninitialized
  | failed (error : String)
  | stale (ageMs maxMs : Nat)
  | invalidGeneration (expected actual : UInt64)
  | staleCandidate (expected actual : UInt64)
  | messageCutRegression (previous next : UInt64)
  | catalogRevisionRegression (previous next : UInt64)
  | manifestCutRegression
  | generationOverflow
  | viewAlreadyPublished
  | statusEpochOverflow
  deriving DecidableEq, Repr

def checkedSucc (n : UInt64) : Option UInt64 := if n.toNat + 1 < 2 ^ 64 then some (n + 1) else none

theorem checkedSucc_eq_some {n m : UInt64} : checkedSucc n = some m ↔ m.toNat = n.toNat + 1 := by
  unfold checkedSucc
  have hm := m.toNat_lt
  split
  · rename_i h
    have hsucc : (n + 1).toNat = n.toNat + 1 := by
      exact Nat.mod_eq_of_lt h
    rw [Option.some.injEq, ← UInt64.toNat_inj, hsucc, eq_comm]
  · rename_i h
    refine iff_of_false (Option.some_ne_none m).symm fun heq => h ?_
    omega

theorem checkedSucc_eq_none {n : UInt64} : checkedSucc n = none ↔ n.toNat = 2 ^ 64 - 1 := by
  unfold checkedSucc
  have hn := n.toNat_lt
  split
  · rename_i h
    exact iff_of_false (Option.some_ne_none _) (by omega)
  · exact iff_of_true rfl (by omega)

def LiveQueryView.validateNonRegressingCut {T : Type} (previous next : LiveQueryView T) :
    Except LiveViewError Unit :=
  if next.visibleMessageSequence < previous.visibleMessageSequence then
    .error (.messageCutRegression previous.visibleMessageSequence next.visibleMessageSequence)
  else if next.catalogRevision < previous.catalogRevision then
    .error (.catalogRevisionRegression previous.catalogRevision next.catalogRevision)
  else
    match previous.manifestCut, next.manifestCut with
    | .absent, _ => .ok ()
    | .present .., .absent => .error .manifestCutRegression
    | .present previousName previousOffset previousHash, .present nextName nextOffset nextHash =>
      if previousName = nextName then
        if nextOffset < previousOffset ∨ nextOffset = previousOffset ∧ nextHash ≠ previousHash then
          .error .manifestCutRegression
        else .ok ()
      -- a rotation changes the file, so its offsets are not compared
      else .ok ()

/-- The state under the lock, and the publication times of the views. -/
structure PublishedLiveState (ν : Type) where
  current : Option ν
  readiness : LiveReadiness
  statusEpoch : UInt64
  publishedAt : ν → Option Nat

structure LiveCommitCandidate (ν : Type) where
  base : LiveCommitBase
  view : ν

namespace PublishedLiveState

variable {ν T : Type}

def new : PublishedLiveState ν := ⟨none, .uninitialized, 0, fun _ => none⟩

def failStateClosed (state : PublishedLiveState ν) (message : String) : PublishedLiveState ν :=
  { state with
    readiness := .failed message
    statusEpoch := (checkedSucc state.statusEpoch).getD state.statusEpoch }

section
variable (views : ν → LiveQueryView T) (state : PublishedLiveState ν)

def expectedGeneration : Option UInt64 :=
  match state.current with
  | some view => checkedSucc (views view).generation
  | none => some 1

def beginCommit : Except LiveViewError LiveCommitBase × PublishedLiveState ν :=
  match state.expectedGeneration views with
  | none => (.error .generationOverflow, state.failStateClosed "live view generation overflow")
  | some next => (.ok ⟨state.statusEpoch, next⟩, state)

def validateReadiness (maxViewStaleness : Nat) (state : PublishedLiveState ν) (now : Nat) :
    Except LiveViewError Unit :=
  match state.readiness with
  | .uninitialized => .error .uninitialized
  | .failed error => .error (.failed error)
  | .dirtySince dirtySince =>
    if maxViewStaleness < now - dirtySince then
      .error (.stale ((now - dirtySince) / 1000000) (maxViewStaleness / 1000000))
    else .ok ()
  | .ready => .ok ()

def pin (maxViewStaleness : Nat) (state : PublishedLiveState ν) (now : Nat) :
    Except LiveViewError ν := do
  state.validateReadiness maxViewStaleness now
  match state.current with
  | some view => return view
  | none => throw .uninitialized

def becomeDirty (now : Nat) : Except LiveViewError Unit × PublishedLiveState ν :=
  match checkedSucc state.statusEpoch with
  | none => (.error .statusEpochOverflow,
      { state with readiness := .failed "live view status epoch overflow" })
  | some epoch => (.ok (), { state with readiness := .dirtySince now, statusEpoch := epoch })

/-- A new message does not hide a failure, and the first one since a commit counts. -/
def markDirty (now : Nat) : Except LiveViewError Unit × PublishedLiveState ν :=
  match state.readiness with
  | .failed _ => (.ok (), state)
  | .dirtySince _ => (.ok (), state)
  | .uninitialized => state.becomeDirty now
  | .ready => state.becomeDirty now

def markFailed (error : String) : Except LiveViewError Unit × PublishedLiveState ν :=
  match checkedSucc state.statusEpoch with
  | some epoch => (.ok (), { state with readiness := .failed error, statusEpoch := epoch })
  | none => (.error .statusEpochOverflow, { state with readiness := .failed error })

def finalizePublishedAt [DecidableEq ν] (view : ν) (now : Nat) :
    Except LiveViewError (PublishedLiveState ν) :=
  match state.publishedAt view with
  | some _ => .error .viewAlreadyPublished
  | none => .ok { state with publishedAt := Function.update state.publishedAt view (some now) }

def validateCut (view : ν) : Except LiveViewError Unit :=
  match state.current with
  | some previous => (views previous).validateNonRegressingCut (views view)
  | none => .ok ()

def commit [DecidableEq ν] (candidate : LiveCommitCandidate ν) (now : Nat)
    : Except LiveViewError Unit × PublishedLiveState ν :=
  if state.statusEpoch ≠ candidate.base.statusEpoch then
    (.error (.staleCandidate candidate.base.statusEpoch state.statusEpoch), state)
  else
    match state.expectedGeneration views with
    | none => (.error .generationOverflow, state.failStateClosed "live view generation overflow")
    | some expected =>
      if candidate.base.nextGeneration ≠ expected ∨ (views candidate.view).generation ≠ expected then
        (.error (.invalidGeneration expected (views candidate.view).generation), state)
      else
        match state.validateCut views candidate.view with
        | .error error => (.error error, state)
        | .ok () =>
          match checkedSucc state.statusEpoch with
          | none => (.error .statusEpochOverflow,
              { state with readiness := .failed "live view status epoch overflow" })
          | some epoch =>
            match state.finalizePublishedAt candidate.view now with
            | .error error => (.error error, state)
            | .ok state => (.ok (), { state with
                current := some candidate.view, readiness := .ready, statusEpoch := epoch })

end

end PublishedLiveState

inductive LiveOp (ν : Type)
  | beginCommit
  | commit (candidate : LiveCommitCandidate ν) (now : Nat)
  | markDirty (now : Nat)
  | markFailed (error : String)
  | pin (now : Nat)

inductive LiveAnswer (ν : Type)
  | base (base : LiveCommitBase)
  | view (view : ν)
  | done
  deriving DecidableEq

abbrev LiveOutcome (ν : Type) := Except LiveViewError (LiveAnswer ν)

section
variable {ν T : Type} [DecidableEq ν]

def PublishedLiveState.step (views : ν → LiveQueryView T) (maxViewStaleness : Nat)
    (state : PublishedLiveState ν) : LiveOp ν → LiveOutcome ν × PublishedLiveState ν
  | .beginCommit => ((state.beginCommit views).1.map .base, (state.beginCommit views).2)
  | .commit candidate now =>
    ((state.commit views candidate now).1.map fun _ => .done, (state.commit views candidate now).2)
  | .markDirty now => ((state.markDirty now).1.map fun _ => .done, (state.markDirty now).2)
  | .markFailed error => ((state.markFailed error).1.map fun _ => .done, (state.markFailed error).2)
  | .pin now => ((state.pin maxViewStaleness now).map .view, state)

end

end Chronoxide
