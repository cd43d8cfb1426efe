import Mathlib.Data.List.Chain
import Chronoxide.Live.QueryHandle

/-! The handle as a version register: what holds of every history of its operations. -/

namespace Chronoxide
open Machine List

namespace PublishedLiveState

variable {now : Nat} {error : LiveViewError}

section
variable {ν T : Type}

def installedBy : LiveOp ν × LiveOutcome ν → Option ν
  | (.commit candidate _, .ok _) => some candidate.view
  | _ => none

variable (past : List (LiveOp ν × LiveOutcome ν))

def installed : List ν := past.filterMap installedBy

def dirtiedBy : LiveOp ν × LiveOutcome ν → Option Nat
  | (.markDirty now, _) => some now
  | _ => none

def sinceInstall : List (LiveOp ν × LiveOutcome ν) :=
  past.foldl (fun seen event => if (installedBy event).isSome then [] else seen ++ [event]) []

def firstDirty : Option Nat :=
  (sinceInstall past).findSome? dirtiedBy

variable (event : LiveOp ν × LiveOutcome ν)

theorem installed_concat :
    installed (past ++ [event]) = installed past ++ (installedBy event).toList := by
  cases h : installedBy event <;> simp [installed, h]

theorem firstDirty_concat : firstDirty (past ++ [event]) =
      if (installedBy event).isSome then none else (firstDirty past).or (dirtiedBy event) := by
  rw [firstDirty, sinceInstall, foldl_append, foldl_cons, foldl_nil]
  split
  · rfl
  · rw [findSome?_append]
    simp only [findSome?_cons, findSome?_nil, firstDirty, sinceInstall]
    cases dirtiedBy event <;> rfl

/-- A failure or an overflow was met: no query may see a view. -/
def IsFailed (state : PublishedLiveState ν) : Prop := ∃ error, state.readiness = .failed error

structure NotBefore (previous next : LiveQueryView T) : Prop where
  message : previous.visibleMessageSequence ≤ next.visibleMessageSequence
  catalog : previous.catalogRevision ≤ next.catalogRevision
  manifest : ∀ fileName offset offset' hash hash',
    previous.manifestCut = .present fileName offset hash →
      next.manifestCut = .present fileName offset' hash' → offset ≤ offset'

variable {previous next : LiveQueryView T}

theorem notBefore_of_validate
    (h : previous.validateNonRegressingCut next = .ok ()) : NotBefore previous next := by
  unfold LiveQueryView.validateNonRegressingCut at h
  split at h
  · cases h
  rename_i hmessage
  split at h
  · cases h
  rename_i hcatalog
  refine ⟨UInt64.not_lt.mp hmessage, UInt64.not_lt.mp hcatalog, ?_⟩
  intro fileName offset offset' hash hash' hprevious hnext
  rw [hprevious, hnext] at h
  simp only [↓reduceIte] at h
  split at h
  · cases h
  · rename_i hcut
    exact UInt64.not_lt.mp fun hlt => hcut (.inl hlt)

def Overflows (outcome : LiveOutcome ν) : Prop :=
  outcome = .error .generationOverflow ∨ outcome = .error .statusEpochOverflow

theorem validateCut_error (h : previous.validateNonRegressingCut next = .error error) :
    ¬Overflows (.error error : LiveOutcome ν) := by
  unfold LiveQueryView.validateNonRegressingCut at h
  repeat' split at h
  all_goals cases h
  all_goals rintro (h | h) <;> cases h

def offsetIn (fileName : String) (view : LiveQueryView T) : Option UInt64 :=
  match view.manifestCut with
  | .present name offset _ => if name = fileName then some offset else none
  | .absent => none

theorem pairwise_le {same : List ν} (number : ν → UInt64)
    (h : same.IsChain fun view view' => number view ≤ number view') :
    same.Pairwise fun view view' => number view ≤ number view' := by
  have : Trans (fun view view' => number view ≤ number view')
      (fun view view' => number view ≤ number view') (fun view view' => number view ≤ number view') :=
    ⟨UInt64.le_trans⟩
  exact isChain_iff_pairwise.mp h

theorem NotBefore.offset_le {fileName : String} {offset offset' : UInt64}
    (h : NotBefore previous next) (hprevious : offsetIn fileName previous = some offset)
    (hnext : offsetIn fileName next = some offset') : offset ≤ offset' := by
  unfold offsetIn at hprevious hnext
  split at hprevious
  · rename_i name found hash hcut
    split at hnext
    · rename_i name' found' hash' hcut'
      obtain ⟨rfl, heq⟩ := Option.ite_none_right_eq_some.mp hprevious
      obtain ⟨rfl, heq'⟩ := Option.ite_none_right_eq_some.mp hnext
      cases heq
      cases heq'
      exact h.manifest _ _ _ _ _ hcut hcut'
    · cases hnext
  · cases hprevious

theorem pairwise_offsets {views : ν → LiveQueryView T} {fileName : String} {same : List ν}
    (h : same.IsChain fun view view' => NotBefore (views view) (views view'))
    (hfile : ∀ view ∈ same, (offsetIn fileName (views view)).isSome) :
    same.Pairwise fun view view' => ∀ offset ∈ offsetIn fileName (views view),
      ∀ offset' ∈ offsetIn fileName (views view'), offset ≤ offset' := by
  have hchain : same.IsChain fun view view' =>
      (offsetIn fileName (views view)).getD 0 ≤ (offsetIn fileName (views view')).getD 0 := by
    refine h.imp_of_mem_imp fun view view' hview hview' hnotBefore => ?_
    obtain ⟨offset, hoffset⟩ := Option.isSome_iff_exists.mp (hfile view hview)
    obtain ⟨offset', hoffset'⟩ := Option.isSome_iff_exists.mp (hfile view' hview')
    rw [hoffset, hoffset']
    exact hnotBefore.offset_le hoffset hoffset'
  refine (pairwise_le _ hchain).imp fun hle offset hoffset offset' hoffset' => ?_
  rwa [hoffset, hoffset'] at hle

/-- What a step can do, as the events of a history see it. -/
inductive Moves (views : ν → LiveQueryView T) (state : PublishedLiveState ν) :
    LiveOp ν → LiveOutcome ν → PublishedLiveState ν → Prop
  | stays {op : LiveOp ν} {outcome : LiveOutcome ν} (hinstall : installedBy (op, outcome) = none)
      (hoverflow : ¬Overflows outcome)
      (hdirty : (dirtiedBy (op, outcome)).isSome →
        state.IsFailed ∨ ∃ now, state.readiness = .dirtySince now) :
      Moves views state op outcome state
  | fails {op : LiveOp ν} {outcome : LiveOutcome ν} (hinstall : installedBy (op, outcome) = none)
      (error : String) (epoch : UInt64)
      (hepoch : epoch.toNat = state.statusEpoch.toNat + 1 ∨
        epoch = state.statusEpoch ∧ state.statusEpoch.toNat = 2 ^ 64 - 1)
      (hspent : Overflows outcome →
        state.statusEpoch.toNat = 2 ^ 64 - 1 ∨ state.expectedGeneration views = none)
      (hcommit : ∀ candidate now, op = .commit candidate now → Overflows outcome) :
      Moves views state op outcome { state with readiness := .failed error, statusEpoch := epoch }
  | dirties (now : Nat) (epoch : UInt64) (hepoch : epoch.toNat = state.statusEpoch.toNat + 1)
      (hready : state.readiness = .ready ∨ state.readiness = .uninitialized) :
      Moves views state (.markDirty now) (.ok .done)
        { state with readiness := .dirtySince now, statusEpoch := epoch }
  | installs (candidate : LiveCommitCandidate ν) (now : Nat) (epoch : UInt64)
      (publishedAt : ν → Option Nat)
      (hbase : state.statusEpoch = candidate.base.statusEpoch)
      (hepoch : epoch.toNat = state.statusEpoch.toNat + 1)
      (hgeneration : state.expectedGeneration views = some (views candidate.view).generation)
      (hcut : ∀ previous ∈ state.current, NotBefore (views previous) (views candidate.view)) :
      Moves views state (.commit candidate now) (.ok .done)
        ⟨some candidate.view, .ready, epoch, publishedAt⟩

variable {views : ν → LiveQueryView T} {maxViewStaleness : Nat} {state : PublishedLiveState ν}

theorem getD_checkedSucc (n : UInt64) :
    ((checkedSucc n).getD n).toNat = n.toNat + 1 ∨
      (checkedSucc n).getD n = n ∧ n.toNat = 2 ^ 64 - 1 := by
  cases h : checkedSucc n with
  | none => exact .inr ⟨rfl, checkedSucc_eq_none.mp h⟩
  | some m => exact .inl (checkedSucc_eq_some.mp h)

theorem not_overflows_ok {answer : LiveAnswer ν} : ¬Overflows (.ok answer) := by
  rintro (h | h) <;> cases h

theorem moves_becomeDirty (now : Nat)
    (hready : state.readiness = .ready ∨ state.readiness = .uninitialized) :
    Moves views state (.markDirty now) ((state.becomeDirty now).1.map fun _ => .done)
      (state.becomeDirty now).2 := by
  unfold becomeDirty
  cases hepoch : checkedSucc state.statusEpoch with
  | none =>
    have hlast := checkedSucc_eq_none.mp hepoch
    exact .fails rfl _ _ (.inr ⟨rfl, hlast⟩) (fun _ => .inl hlast) nofun
  | some epoch => exact .dirties now epoch (checkedSucc_eq_some.mp hepoch) hready

theorem moves_markDirty (now : Nat) :
    Moves views state (.markDirty now) ((state.markDirty now).1.map fun _ => .done)
      (state.markDirty now).2 := by
  unfold markDirty
  split
  · rename_i error hreadiness
    exact .stays rfl not_overflows_ok fun _ => .inl ⟨error, hreadiness⟩
  · rename_i earlier hreadiness
    exact .stays rfl not_overflows_ok fun _ => .inr ⟨earlier, hreadiness⟩
  · rename_i hreadiness
    exact moves_becomeDirty now (.inr hreadiness)
  · rename_i hreadiness
    exact moves_becomeDirty now (.inl hreadiness)

theorem moves_commit [DecidableEq ν] (candidate : LiveCommitCandidate ν) (now : Nat) :
    Moves views state (.commit candidate now)
      ((state.commit views candidate now).1.map fun _ => .done)
      (state.commit views candidate now).2 := by
  unfold commit
  split
  · exact .stays rfl (by rintro (h | h) <;> cases h) nofun
  rename_i hbase
  split
  · rename_i hgeneration
    exact .fails rfl _ _ (getD_checkedSucc _) (fun _ => .inr hgeneration) fun _ _ _ => .inl rfl
  rename_i expected hgeneration
  split
  · exact .stays rfl (by rintro (h | h) <;> cases h) nofun
  rename_i hexpected
  split
  · rename_i error hcut
    refine .stays rfl ?_ nofun
    unfold validateCut at hcut
    split at hcut
    · exact validateCut_error hcut
    · cases hcut
  rename_i hcut
  split
  · rename_i hepoch
    have hlast := checkedSucc_eq_none.mp hepoch
    exact .fails rfl _ _ (.inr ⟨rfl, hlast⟩) (fun _ => .inl hlast) fun _ _ _ => .inr rfl
  rename_i epoch hepoch
  unfold finalizePublishedAt
  split
  · rename_i error hpublished
    split at hpublished
    · cases hpublished
      exact .stays rfl (by rintro (h | h) <;> cases h) nofun
    · cases hpublished
  rename_i published hpublished
  obtain ⟨hnext, hview⟩ := not_or.mp hexpected
  rw [not_not] at hnext hview
  refine .installs candidate now epoch published.publishedAt (not_not.mp hbase)
    (checkedSucc_eq_some.mp hepoch) (hview ▸ hgeneration) fun previous hprevious => ?_
  rw [validateCut, hprevious] at hcut
  exact notBefore_of_validate hcut

theorem moves_step [DecidableEq ν] (op : LiveOp ν) :
    Moves views state op (state.step views maxViewStaleness op).1
      (state.step views maxViewStaleness op).2 := by
  cases op with
  | beginCommit =>
    simp only [step, beginCommit]
    split
    · rename_i hgeneration
      exact .fails rfl _ _ (getD_checkedSucc _) (fun _ => .inr hgeneration) nofun
    · exact .stays rfl not_overflows_ok nofun
  | commit candidate now => exact moves_commit candidate now
  | markDirty now => exact moves_markDirty now
  | markFailed error =>
    simp only [step, markFailed]
    cases hepoch : checkedSucc state.statusEpoch with
    | some epoch =>
      exact .fails rfl _ _ (.inl (checkedSucc_eq_some.mp hepoch))
        (fun h => absurd h not_overflows_ok) nofun
    | none =>
      have hlast := checkedSucc_eq_none.mp hepoch
      exact .fails rfl _ _ (.inr ⟨rfl, hlast⟩) (fun _ => .inl hlast) nofun
  | pin now =>
    refine .stays rfl ?_ nofun
    simp only [step, pin, validateReadiness]
    cases state.current <;> split <;> try split
    all_goals rintro (h | h) <;> cases h

section
variable {next : PublishedLiveState ν} {op : LiveOp ν} {outcome : LiveOutcome ν}

def SameStatus (state next : PublishedLiveState ν) : Prop :=
  next.current = state.current ∧ next.readiness = state.readiness ∧
    next.statusEpoch = state.statusEpoch

theorem Moves.epoch (h : Moves views state op outcome next) :
    SameStatus state next ∨ state.statusEpoch.toNat < next.statusEpoch.toNat ∨
      next.statusEpoch = state.statusEpoch ∧ state.statusEpoch.toNat = 2 ^ 64 - 1 := by
  cases h with
  | stays => exact .inl ⟨rfl, rfl, rfl⟩
  | fails _ error epoch hepoch =>
    rcases hepoch with hepoch | hepoch
    · exact .inr (.inl (by change _ < epoch.toNat; omega))
    · exact .inr (.inr hepoch)
  | dirties now epoch hepoch => exact .inr (.inl (by change _ < epoch.toNat; omega))
  | installs _ _ epoch _ _ hepoch => exact .inr (.inl (by change _ < epoch.toNat; omega))

theorem Moves.epoch_le (h : Moves views state op outcome next) :
    state.statusEpoch ≤ next.statusEpoch := by
  rw [UInt64.le_iff_toNat_le]
  rcases h.epoch with ⟨-, -, heq⟩ | hlt | ⟨heq, -⟩
  · rw [heq]
  · exact hlt.le
  · rw [heq]

theorem IsFailed.not_clean (h : state.IsFailed) :
    ¬(state.readiness = .ready ∨ state.readiness = .uninitialized) := by
  obtain ⟨error, h⟩ := h
  rw [h]
  rintro (h | h) <;> cases h

theorem Moves.isFailed (h : Moves views state op outcome next) (hfailed : state.IsFailed)
    (hinstall : installedBy (op, outcome) = none) : next.IsFailed := by
  cases h with
  | stays => exact hfailed
  | fails _ error => exact ⟨error, rfl⟩
  | dirties now epoch hepoch hready => exact absurd hready hfailed.not_clean
  | installs => cases hinstall

structure Exhausted (views : ν → LiveQueryView T) (state : PublishedLiveState ν) : Prop where
  failed : state.IsFailed
  spent : state.statusEpoch.toNat = 2 ^ 64 - 1 ∨ state.expectedGeneration views = none

theorem Moves.exhausted (h : Moves views state op outcome next)
    (hcause : Exhausted views state ∨ Overflows outcome) : Exhausted views next := by
  cases h with
  | stays _ hnone => exact hcause.resolve_right hnone
  | fails _ error epoch hepoch hspent =>
    refine ⟨⟨error, rfl⟩, (hcause.elim (·.spent) hspent).imp (fun hmax => ?_) id⟩
    have hlt := epoch.toNat_lt
    rcases hepoch with hepoch | ⟨rfl, -⟩
    · omega
    · exact hmax
  | dirties now epoch hepoch hready =>
    exact absurd hready (hcause.resolve_right not_overflows_ok).failed.not_clean
  | installs candidate now epoch publishedAt hbase hepoch hgeneration =>
    have hlt := epoch.toNat_lt
    rcases (hcause.resolve_right not_overflows_ok).spent with hmax | hnone
    · omega
    · rw [hnone] at hgeneration
      cases hgeneration

theorem Moves.commit_ok {candidate : LiveCommitCandidate ν}
    (h : Moves views state (.commit candidate now) (.ok .done) next) :
    state.statusEpoch = candidate.base.statusEpoch ∧ state.statusEpoch.toNat < 2 ^ 64 - 1 := by
  cases h with
  | stays hinstall => cases hinstall
  | fails hinstall => cases hinstall
  | installs _ _ epoch _ hbase hepoch =>
    have hlt := epoch.toNat_lt
    exact ⟨hbase, by omega⟩

theorem Moves.commit_error {candidate : LiveCommitCandidate ν}
    (h : Moves views state (.commit candidate now) (.error error) next)
    (hgeneration : error ≠ .generationOverflow) (hepoch : error ≠ .statusEpochOverflow) :
    next = state := by
  cases h with
  | stays => rfl
  | fails _ _ _ _ _ hcommit =>
    rcases hcommit candidate now rfl with heq | heq
    · exact absurd (Except.error.inj heq) hgeneration
    · exact absurd (Except.error.inj heq) hepoch

theorem pin_ok {view : ν} (h : state.pin maxViewStaleness now = .ok view) :
    state.current = some view ∧ (state.readiness = .ready ∨
      ∃ dirty, state.readiness = .dirtySince dirty ∧ now - dirty ≤ maxViewStaleness) := by
  unfold pin validateReadiness at h
  split at h
  · cases h
  · cases h
  · rename_i dirty hreadiness
    split at h
    · cases h
    rename_i hage
    split at h
    · rename_i current hcurrent
      cases h
      exact ⟨hcurrent, .inr ⟨dirty, hreadiness, Nat.not_lt.mp hage⟩⟩
    · cases h
  rename_i hreadiness
  split at h
  · rename_i current hcurrent
    cases h
    exact ⟨hcurrent, .inl hreadiness⟩
  · cases h

end

structure Follows (views : ν → LiveQueryView T) (past : List (LiveOp ν × LiveOutcome ν))
    (state : PublishedLiveState ν) : Prop where
  current : state.current = (installed past).getLast?
  generations : (installed past).map (fun view => (views view).generation.toNat) =
    List.range' 1 (installed past).length
  cuts : (installed past).IsChain fun view view' => NotBefore (views view) (views view')
  clean : state.readiness = .ready ∨ state.readiness = .uninitialized → firstDirty past = none
  dirty : ∀ now, state.readiness = .dirtySince now → firstDirty past = some now

theorem follows_new : Follows views [] new :=
  ⟨rfl, rfl, .nil, fun _ => rfl, nofun⟩

section
variable {past : List (LiveOp ν × LiveOutcome ν)} {state next : PublishedLiveState ν} {op : LiveOp ν}
  {outcome : LiveOutcome ν}

theorem Follows.expectedGeneration (h : Follows views past state) {generation : UInt64}
    (hexpected : state.expectedGeneration views = some generation) :
    generation.toNat = (installed past).length + 1 := by
  have hgenerations := h.generations
  unfold PublishedLiveState.expectedGeneration at hexpected
  rw [h.current] at hexpected
  rcases eq_nil_or_concat (installed past) with hnil | ⟨front, last, hlast⟩
  · rw [hnil] at hexpected ⊢
    cases hexpected
    rfl
  rw [concat_eq_append] at hlast
  rw [hlast, getLast?_concat] at hexpected
  rw [hlast] at hgenerations ⊢
  -- the generation of the last view is the number of views
  rw [length_append, length_singleton, map_append, range'_concat] at hgenerations
  have hlastGeneration := (append_inj' hgenerations rfl).2
  rw [map_singleton, singleton_inj] at hlastGeneration
  have hsucc := checkedSucc_eq_some.mp hexpected
  rw [length_append, length_singleton]
  omega

theorem Follows.of_installs_nothing (h : Follows views past state)
    (hinstall : installedBy (op, outcome) = none) (hcurrent : next.current = state.current)
    (hclean : next.readiness = .ready ∨ next.readiness = .uninitialized →
      (firstDirty past).or (dirtiedBy (op, outcome)) = none)
    (hdirty : ∀ now, next.readiness = .dirtySince now →
      (firstDirty past).or (dirtiedBy (op, outcome)) = some now) :
    Follows views (past ++ [(op, outcome)]) next := by
  have hinstalled : installed (past ++ [(op, outcome)]) = installed past := by
    rw [installed_concat, hinstall, Option.toList_none, append_nil]
  have hfirst : firstDirty (past ++ [(op, outcome)]) =
      (firstDirty past).or (dirtiedBy (op, outcome)) := by
    rw [firstDirty_concat, hinstall]
    rfl
  refine ⟨?_, ?_, ?_, ?_, ?_⟩
  · rw [hcurrent, hinstalled, h.current]
  · rw [hinstalled, h.generations]
  · rw [hinstalled]
    exact h.cuts
  · rw [hfirst]
    exact hclean
  · rw [hfirst]
    exact hdirty

theorem Follows.moves (h : Follows views past state) (hmoves : Moves views state op outcome next) :
    Follows views (past ++ [(op, outcome)]) next := by
  cases hmoves with
  | stays hinstall _ hdirty =>
    refine h.of_installs_nothing hinstall rfl (fun hready => ?_) fun now hnow => ?_
    · -- a clean state would not stay as it is under a message
      rw [h.clean hready, Option.none_or]
      refine Option.not_isSome_iff_eq_none.mp fun hsome => ?_
      rcases hdirty hsome with hfailed | ⟨now, hnow⟩
      · exact hfailed.not_clean hready
      · rw [hnow] at hready
        rcases hready with hready | hready <;> cases hready
    · rw [h.dirty now hnow, Option.some_or]
  | fails hinstall error epoch hepoch =>
    refine h.of_installs_nothing hinstall rfl (fun hready => ?_) nofun
    rcases hready with hready | hready <;> cases hready
  | dirties now epoch hepoch hready =>
    refine h.of_installs_nothing rfl rfl (fun hready => ?_) fun now' hnow => ?_
    · rcases hready with hready | hready <;> cases hready
    · rw [h.clean hready, Option.none_or]
      cases hnow
      rfl
  | installs candidate now epoch publishedAt hbase hepoch hgeneration hcut =>
    have hinstalled : installed (past ++ [(.commit candidate now, .ok .done)]) =
        installed past ++ [candidate.view] := by
      rw [installed_concat]
      rfl
    have hfirst : firstDirty (past ++ [(LiveOp.commit candidate now, .ok .done)]) = none := by
      rw [firstDirty_concat]
      rfl
    refine ⟨?_, ?_, ?_, fun _ => hfirst, nofun⟩
    · rw [hinstalled, getLast?_concat]
    · rw [hinstalled, map_append, h.generations, length_append, length_singleton, range'_concat,
        map_singleton, h.expectedGeneration hgeneration, Nat.one_mul, Nat.add_comm 1]
    rw [hinstalled]
    refine isChain_append.mpr ⟨h.cuts, .singleton _, fun view hview view' hview' => ?_⟩
    rw [← h.current] at hview
    rw [head?_cons, Option.mem_some] at hview'
    exact hview' ▸ hcut view hview

end

end

section
variable {ν T : Type} [DecidableEq ν] (views : ν → LiveQueryView T) (maxViewStaleness : Nat)

variable (ops : List (LiveOp ν))

def after : PublishedLiveState ν := run (step views maxViewStaleness) new ops

def history : List (LiveOp ν × LiveOutcome ν) :=
  events (step views maxViewStaleness) new ops

def answer (op : LiveOp ν) : LiveOutcome ν :=
  ((after views maxViewStaleness ops).step views maxViewStaleness op).1

variable {views maxViewStaleness}

theorem follows :
    Follows views (history views maxViewStaleness ops) (after views maxViewStaleness ops) :=
  invariant (I := Follows views) follows_new (fun _ _ _ h => h.moves (moves_step _)) ops

variable {state next : PublishedLiveState ν} {op : LiveOp ν} {outcome : LiveOutcome ν}

theorem run_epoch_le (state : PublishedLiveState ν) (ops : List (LiveOp ν)) :
    state.statusEpoch ≤ (run (step views maxViewStaleness) state ops).statusEpoch :=
  run_rel (R := fun s s' : PublishedLiveState ν => s.statusEpoch ≤ s'.statusEpoch)
    (fun _ => UInt64.le_refl _) UInt64.le_trans
    (fun s op => (@moves_step ν T views maxViewStaleness s _ op).epoch_le) ops

theorem epoch_le (ops more : List (LiveOp ν)) :
    (after views maxViewStaleness ops).statusEpoch ≤
      (after views maxViewStaleness (ops ++ more)).statusEpoch := by
  unfold after
  rw [run_append]
  exact run_epoch_le _ more

variable {ops : List (LiveOp ν)}

theorem sameStatus_of_epoch (hmax : state.statusEpoch.toNat < 2 ^ 64 - 1)
    (h : (run (step views maxViewStaleness) state ops).statusEpoch = state.statusEpoch) :
    SameStatus state (run (step views maxViewStaleness) state ops) := by
  induction ops generalizing state with
  | nil => exact ⟨rfl, rfl, rfl⟩
  | cons op ops ih =>
    have hmoves : Moves views state op _ _ := @moves_step ν T views maxViewStaleness state _ op
    have hle := @run_epoch_le ν T _ views maxViewStaleness
      (state.step views maxViewStaleness op).2 ops
    change (run (step views maxViewStaleness) (state.step views maxViewStaleness op).2
      ops).statusEpoch = _ at h
    rw [h, UInt64.le_iff_toNat_le] at hle
    obtain ⟨hcurrent, hreadiness, hepoch⟩ : SameStatus state (state.step views maxViewStaleness op).2 := by
      rcases hmoves.epoch with hsame | hlt | ⟨-, hlast⟩
      · exact hsame
      · omega
      · omega
    obtain ⟨hcurrent', hreadiness', hepoch'⟩ := ih (hepoch ▸ hmax) (h.trans hepoch.symm)
    exact ⟨hcurrent'.trans hcurrent, hreadiness'.trans hreadiness, hepoch'.trans hepoch⟩

theorem step_beginCommit_ok {base : LiveCommitBase}
    (h : (state.step views maxViewStaleness .beginCommit).1 = .ok (.base base)) :
    (state.step views maxViewStaleness .beginCommit).2 = state ∧ base.statusEpoch = state.statusEpoch := by
  simp only [step, beginCommit] at h ⊢
  split at h
  · cases h
  · cases h
    exact ⟨rfl, rfl⟩

theorem moves_answer (h : answer views maxViewStaleness ops op = outcome) :
    Moves views (after views maxViewStaleness ops) op outcome
      ((after views maxViewStaleness ops).step views maxViewStaleness op).2 :=
  h ▸ moves_step op

theorem isFailed_run (hfailed : state.IsFailed)
    (h : installed (events (step views maxViewStaleness) state ops) = []) :
    (run (step views maxViewStaleness) state ops).IsFailed := by
  induction ops generalizing state with
  | nil => exact hfailed
  | cons op ops ih =>
    rw [installed, events, filterMap_cons] at h
    split at h
    · rename_i hinstall
      exact ih (Moves.isFailed (moves_step op) hfailed hinstall) h
    · cases h

theorem pin_error (hfailed : state.IsFailed) :
    ∃ error, (state.step views maxViewStaleness (.pin now)).1 = .error error := by
  obtain ⟨error, hfailed⟩ := hfailed
  refine ⟨.failed error, ?_⟩
  simp only [step, pin, validateReadiness, hfailed]
  rfl

structure VersionRegister (views : ν → LiveQueryView T) (maxViewStaleness : Nat) : Prop where
  generations : ∀ ops, (installed (history views maxViewStaleness ops)).map
      (fun view => (views view).generation.toNat) =
    List.range' 1 (installed (history views maxViewStaleness ops)).length
  epochs : ∀ ops more, (after views maxViewStaleness ops).statusEpoch ≤
    (after views maxViewStaleness (ops ++ more)).statusEpoch
  /-- A commit succeeds only where the status is the one its base was taken in. -/
  commits : ∀ ops front back base view now,
    answer views maxViewStaleness ops .beginCommit = .ok (.base base) →
      answer views maxViewStaleness (ops ++ .beginCommit :: (front ++ back)) (.commit ⟨base, view⟩ now) =
        .ok .done →
      SameStatus (after views maxViewStaleness ops)
        (after views maxViewStaleness (ops ++ .beginCommit :: front))
  refusals : ∀ ops candidate now error,
    answer views maxViewStaleness ops (.commit candidate now) = .error error →
      error ≠ .generationOverflow → error ≠ .statusEpochOverflow →
      after views maxViewStaleness (ops ++ [.commit candidate now]) = after views maxViewStaleness ops
  messages : ∀ ops, (installed (history views maxViewStaleness ops)).Pairwise fun view view' =>
    (views view).visibleMessageSequence ≤ (views view').visibleMessageSequence
  catalogs : ∀ ops, (installed (history views maxViewStaleness ops)).Pairwise fun view view' =>
    (views view).catalogRevision ≤ (views view').catalogRevision
  /-- The offsets while the manifest file stays the same. -/
  manifests : ∀ ops front same back fileName,
    installed (history views maxViewStaleness ops) = front ++ same ++ back →
      (∀ view ∈ same, (offsetIn fileName (views view)).isSome) →
      same.Pairwise fun view view' => ∀ offset ∈ offsetIn fileName (views view),
        ∀ offset' ∈ offsetIn fileName (views view'), offset ≤ offset'
  failures : ∀ ops error more now,
    installed (history views maxViewStaleness (ops ++ .markFailed error :: more)) =
        installed (history views maxViewStaleness ops) →
      ∃ error', answer views maxViewStaleness (ops ++ .markFailed error :: more) (.pin now) =
        .error error'
  pins : ∀ ops now view, answer views maxViewStaleness ops (.pin now) = .ok (.view view) →
    (installed (history views maxViewStaleness ops)).getLast? = some view ∧
      ∀ dirty ∈ firstDirty (history views maxViewStaleness ops), now - dirty ≤ maxViewStaleness
  overflows : ∀ ops op more now, answer views maxViewStaleness ops op = .error .generationOverflow ∨
      answer views maxViewStaleness ops op = .error .statusEpochOverflow →
    ∃ error, answer views maxViewStaleness (ops ++ op :: more) (.pin now) = .error error

theorem after_concat_cons (ops : List (LiveOp ν)) (op : LiveOp ν) (more : List (LiveOp ν)) :
    after views maxViewStaleness (ops ++ op :: more) = run (step views maxViewStaleness)
      ((after views maxViewStaleness ops).step views maxViewStaleness op).2 more := by
  unfold after
  rw [run_append]
  rfl

theorem status_of_commit {ops front back : List (LiveOp ν)} {base : LiveCommitBase} {view : ν}
    (hbegin : answer views maxViewStaleness ops .beginCommit = .ok (.base base))
    (hcommit : answer views maxViewStaleness (ops ++ .beginCommit :: (front ++ back))
      (.commit ⟨base, view⟩ now) = .ok .done) :
    SameStatus (after views maxViewStaleness ops)
      (after views maxViewStaleness (ops ++ .beginCommit :: front)) := by
  obtain ⟨hstate, hbase⟩ := step_beginCommit_ok hbegin
  obtain ⟨hepoch, hmax⟩ := (moves_answer hcommit).commit_ok
  rw [after_concat_cons, hstate, run_append] at hepoch hmax
  rw [after_concat_cons, hstate]
  -- the epoch is the same at both ends, so it was never moved
  have hbefore := @run_epoch_le ν T _ views maxViewStaleness (after views maxViewStaleness ops) front
  have hbehind := @run_epoch_le ν T _ views maxViewStaleness
    (run (step views maxViewStaleness) (after views maxViewStaleness ops) front) back
  have hend : (run (step views maxViewStaleness) (run (step views maxViewStaleness)
      (after views maxViewStaleness ops) front) back).statusEpoch =
      (after views maxViewStaleness ops).statusEpoch := hepoch.trans hbase
  rw [hend] at hbehind hmax
  exact sameStatus_of_epoch hmax (UInt64.le_antisymm hbehind hbefore)

theorem failed_behind {ops more : List (LiveOp ν)} {error : String}
    (h : installed (history views maxViewStaleness (ops ++ .markFailed error :: more)) =
      installed (history views maxViewStaleness ops)) :
    (after views maxViewStaleness (ops ++ .markFailed error :: more)).IsFailed := by
  rw [after_concat_cons]
  unfold history installed at h
  rw [events_append, filterMap_append, append_right_eq_self, events, filterMap_cons_none rfl] at h
  refine isFailed_run ⟨error, ?_⟩ h
  simp only [step, markFailed]
  split <;> rfl

theorem Follows.pinned {past : List (LiveOp ν × LiveOutcome ν)} (h : Follows views past state)
    {view : ν} (hview : (state.step views maxViewStaleness (.pin now)).1 = .ok (.view view)) :
    (installed past).getLast? = some view ∧
      ∀ dirty ∈ firstDirty past, now - dirty ≤ maxViewStaleness := by
  simp only [step] at hview
  cases hpin : state.pin maxViewStaleness now with
  | error error =>
    rw [hpin] at hview
    cases hview
  | ok pinned =>
    rw [hpin] at hview
    cases hview
    obtain ⟨hcurrent, hready⟩ := pin_ok hpin
    refine ⟨h.current ▸ hcurrent, fun dirty hdirty => ?_⟩
    rcases hready with hready | ⟨earlier, hearlier, hage⟩
    · rw [h.clean (.inl hready)] at hdirty
      cases hdirty
    · rw [h.dirty earlier hearlier] at hdirty
      cases hdirty
      exact hage

theorem versionRegister (views : ν → LiveQueryView T) (maxViewStaleness : Nat) :
    VersionRegister views maxViewStaleness where
  generations ops := (follows ops).generations
  epochs := epoch_le
  commits ops front back base view now := status_of_commit
  refusals ops candidate now error h hgeneration hepoch := by
    rw [after_concat_cons]
    exact (moves_answer h).commit_error hgeneration hepoch
  messages ops := pairwise_le _ ((@follows ν T _ views maxViewStaleness ops).cuts.imp
    fun _ _ h => h.message)
  catalogs ops := pairwise_le _ ((@follows ν T _ views maxViewStaleness ops).cuts.imp
    fun _ _ h => h.catalog)
  manifests ops front same back fileName heq hfile := by
    have hchain := (@follows ν T _ views maxViewStaleness ops).cuts
    rw [heq] at hchain
    exact pairwise_offsets hchain.left_of_append.right_of_append hfile
  failures ops error more now h := pin_error (failed_behind h)
  pins ops now view h := (follows ops).pinned h
  overflows ops op more now h := by
    refine pin_error ?_
    rw [after_concat_cons]
    exact (stable (P := Exhausted views) ((moves_step op).exhausted (.inr h))
      (fun _ op h => (moves_step op).exhausted (.inl h)) more).failed

theorem after_markFailed (error : String) {count : Nat} (hcount : count < 2 ^ 64) :
    ∃ readiness, after views maxViewStaleness (replicate count (.markFailed error)) =
      ⟨none, readiness, UInt64.ofNat count, fun _ => none⟩ := by
  induction count with
  | zero => exact ⟨_, rfl⟩
  | succ count ih =>
    obtain ⟨readiness, hafter⟩ := ih (by omega)
    have hnext : checkedSucc (UInt64.ofNat count) = some (UInt64.ofNat (count + 1)) := by
      rw [checkedSucc_eq_some, UInt64.toNat_ofNat_of_lt' hcount,
        UInt64.toNat_ofNat_of_lt' (Nat.lt_of_succ_lt hcount)]
    rw [replicate_succ', after_concat_cons, hafter]
    simp only [step, markFailed, hnext]
    exact ⟨_, rfl⟩

end

def rotatedViews : Fin 3 → LiveQueryView Unit
  | 0 => ⟨1, .present "a" 10 [], 0, 0, ()⟩
  | 1 => ⟨2, .present "b" 5 [], 0, 0, ()⟩
  | 2 => ⟨3, .present "a" 3 [], 0, 0, ()⟩

theorem commit_at_last_epoch (readiness : LiveReadiness) : let state : PublishedLiveState (Fin 3) :=
      ⟨none, readiness, 18446744073709551614, fun _ => none⟩
    let installed := (state.step rotatedViews 1 (.commit ⟨⟨18446744073709551614, 1⟩, 0⟩ 0)).2
    let refused := installed.step rotatedViews 1 (.commit ⟨⟨18446744073709551615, 2⟩, 1⟩ 0)
    (installed.step rotatedViews 1 (.pin 0)).1 = .ok (.view 0) ∧
      refused.1 = .error .statusEpochOverflow ∧
      (refused.2.step rotatedViews 1 (.pin 0)).1 =
        .error (.failed "live view status epoch overflow") :=
  ⟨rfl, rfl, rfl⟩

/-- A file that is returned to is not compared with its own earlier offset, and a commit that meets
the last epoch closes the register. -/
theorem register_limits :
    (∃ ops, installed (history rotatedViews 1 ops) = [0, 1, 2] ∧
      offsetIn "a" (rotatedViews 0) = some 10 ∧ offsetIn "a" (rotatedViews 2) = some 3) ∧
    ∃ ops candidate, answer rotatedViews 1 ops (.pin 0) = .ok (.view 0) ∧
      answer rotatedViews 1 ops (.commit candidate 0) = .error .statusEpochOverflow ∧
      answer rotatedViews 1 (ops ++ [.commit candidate 0]) (.pin 0) =
        .error (.failed "live view status epoch overflow") := by
  refine ⟨⟨[.commit ⟨⟨0, 1⟩, 0⟩ 0, .commit ⟨⟨1, 2⟩, 1⟩ 0, .commit ⟨⟨2, 3⟩, 2⟩ 0], by decide, by decide,
    by decide⟩, ?_⟩
  -- the number of failures is kept opaque
  obtain ⟨count, hcount⟩ : ∃ count : Nat, count = 2 ^ 64 - 2 := ⟨_, rfl⟩
  obtain ⟨readiness, hafter⟩ :=
    @after_markFailed (Fin 3) Unit _ rotatedViews 1 "x" count (by omega)
  refine ⟨replicate count (.markFailed "x") ++
    [.commit ⟨⟨18446744073709551614, 1⟩, 0⟩ 0], ⟨⟨18446744073709551615, 2⟩, 1⟩, ?_⟩
  unfold answer
  simp only [after_concat_cons, hafter,
    show UInt64.ofNat count = 18446744073709551614 by rw [hcount]; rfl]
  exact commit_at_last_epoch readiness

end PublishedLiveState

end Chronoxide
