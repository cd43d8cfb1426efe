import Chronoxide.Head.SampleStoreContents

/-! Runs of sample store builders: any sequence of insertions, removals and clearings, with the stores
that were finished on the way. -/

namespace Chronoxide
open Codec Faults SortedSet List

inductive StoreOp
  | new
  | fromStore (index : Nat)
  | insertFragment (identity : FrozenFragmentIdentity) (fragment : SharedFragment)
      (faults : StoreFaults)
  | removeFragmentKey (fragment : FrozenFragmentKey) (faults : StoreFaults)
  | clearIfExactFragments (exactFragments : List FrozenFragmentIdentity)
  | finish

/-- A builder and the finished stores, each with the fragments that were inserted into it by calls
that succeeded and not removed. -/
structure StoreRun where
  builder : LiveSampleStoreBuilder
  contents : StoreContents
  stores : List (LiveSampleStore × StoreContents)

namespace StoreRun
open LiveSampleStore

def start : StoreRun := ⟨.new, [], []⟩

def step (run : StoreRun) : StoreOp → StoreRun
  | .new => { run with builder := .new, contents := [] }
  | .fromStore index =>
    match run.stores[index]? with
    | none => run
    | some (store, contents) => { run with builder := store.fromStore, contents }
  | .insertFragment identity fragment faults =>
    match run.builder.insertFragment identity fragment faults with
    | (.ok (), builder) =>
      { run with builder, contents := StoreContents.insert run.contents (identity, fragment) }
    | (.error _, builder) => { run with builder }
  | .removeFragmentKey fragment faults =>
    match run.builder.removeFragmentKey fragment faults with
    | (.ok _, builder) =>
      { run with builder, contents := StoreContents.removeKey run.contents fragment }
    | (.error _, builder) => { run with builder }
  | .clearIfExactFragments exactFragments =>
    match run.builder.clearIfExactFragments exactFragments with
    | (.ok (), builder) => { run with builder, contents := [] }
    | (.error _, builder) => { run with builder }
  | .finish => ⟨.new, [], run.stores ++ [(run.builder.finish, run.contents)]⟩

def steps (run : StoreRun) (ops : List StoreOp) : StoreRun := ops.foldl step run

end StoreRun

namespace LiveSampleStore

variable {store store' : LiveSampleStore} {contents : StoreContents}

structure Exact (store : LiveSampleStore) (contents : StoreContents) : Prop where
  distinct : (contents.map Prod.fst).Nodup
  nonempty : ∀ e ∈ contents, e.2.runs ≠ []
  identities : Is store.fragmentIdentities (· ∈ contents.map Prod.fst)
  count : store.fragmentCount = contents.length
  series : ∀ faults, ∃ series, Yields faults.Raises (store.activeSeriesRefs faults) series ∧
    Is series (StoreContents.HasSeries contents)
  runs : ∀ startMs endMs faults, ∃ runs,
    Yields faults.Raises (store.orderedRuns startMs endMs faults) runs ∧
      runs.Perm (visibleRuns contents startMs endMs) ∧
      runs.Pairwise (·.readOrderKey < ·.readOrderKey)

theorem Represents.exact (h : store.Represents contents) : store.Exact contents :=
  ⟨h.distinct, h.nonempty, h.identities, h.count, h.activeSeriesRefs, h.orderedRuns⟩

theorem insertFragment_cases (store : LiveSampleStore) (e : StoredFragment) (faults : StoreFaults) :
    (∃ store', store.insertFragment e.1 e.2 faults = (.ok (), store') ∧
      store.insertedFragment e.1 e.2 faults = .ok store') ∨
    ∃ error, store.insertFragment e.1 e.2 faults = (.error error, store) := by
  unfold insertFragment
  cases hresult : store.insertedFragment e.1 e.2 faults with
  | ok store' => exact .inl ⟨store', rfl, rfl⟩
  | error error => exact .inr ⟨error, rfl⟩

theorem Represents.removeFragmentKey_cases (h : store.Represents contents)
    (fragment : FrozenFragmentKey) (faults : StoreFaults) :
    (∃ keys store', store.removeFragmentKey fragment faults = (.ok keys, store') ∧
      store'.Represents (StoreContents.removeKey contents fragment)) ∨
    ∃ error, store.removeFragmentKey fragment faults = (.error error, store) ∧
      faults.Raises error := by
  obtain ⟨store', hyields, hrepresents⟩ := h.removedFragment fragment faults
  unfold removeFragmentKey
  rcases hyields with hok | ⟨error, hraises, herror⟩
  · rw [hok]
    exact .inl ⟨_, store', rfl, hrepresents⟩
  · rw [herror]
    exact .inr ⟨error, rfl, hraises⟩

theorem represents_cleared (store : LiveSampleStore) :
    ({ store with root := .empty (by decide), fragmentCount := 0, fragmentIdentities := [] } :
      LiveSampleStore).Represents [] := by
  obtain ⟨hidentities, hdistinct, hcount, hlt, hnonempty, -, hholds⟩ := represents_new
  exact ⟨hidentities, hdistinct, hcount, hlt, hnonempty, by simp, hholds⟩

theorem Represents.clearIfExactFragments_cases (h : store.Represents contents)
    (exactFragments : List FrozenFragmentIdentity) :
    (∃ store', store.clearIfExactFragments exactFragments = (.ok (), store') ∧
      store.fragmentIdentities = exactFragments ∧ store'.Represents []) ∨
    ∃ error, store.clearIfExactFragments exactFragments = (.error error, store) ∧
      store.fragmentIdentities ≠ exactFragments := by
  unfold clearIfExactFragments
  rw [h.validateExact]
  by_cases hexact : store.fragmentIdentities = exactFragments
  · rw [require_pos hexact]
    exact .inl ⟨_, rfl, hexact, represents_cleared store⟩
  · rw [require, if_neg hexact]
    exact .inr ⟨_, rfl, hexact⟩

end LiveSampleStore

namespace StoreRun
open LiveSampleStore

variable {run : StoreRun}

structure Accounted (run : StoreRun) : Prop where
  builder : run.builder.Represents run.contents
  stores : ∀ e ∈ run.stores, e.1.Represents e.2

theorem Accounted.step (h : run.Accounted) (op : StoreOp) : (run.step op).Accounted := by
  cases op with
  | new => exact ⟨represents_new, h.stores⟩
  | fromStore index =>
    simp only [StoreRun.step]
    split
    · exact h
    · rename_i store contents hget
      exact ⟨h.stores _ (mem_of_getElem? hget), h.stores⟩
  | insertFragment identity fragment faults =>
    simp only [StoreRun.step]
    rcases run.builder.insertFragment_cases (identity, fragment) faults with
      ⟨store', hcall, hok⟩ | ⟨error, hcall⟩
    · rw [hcall]
      exact ⟨h.builder.insertedFragment hok, h.stores⟩
    · rw [hcall]
      exact h
  | removeFragmentKey fragment faults =>
    simp only [StoreRun.step]
    rcases h.builder.removeFragmentKey_cases fragment faults with
      ⟨keys, store', hcall, hrepresents⟩ | ⟨error, hcall, -⟩
    · rw [hcall]
      exact ⟨hrepresents, h.stores⟩
    · rw [hcall]
      exact h
  | clearIfExactFragments exactFragments =>
    simp only [StoreRun.step]
    rcases h.builder.clearIfExactFragments_cases exactFragments with
      ⟨store', hcall, -, hrepresents⟩ | ⟨error, hcall, -⟩
    · rw [hcall]
      exact ⟨hrepresents, h.stores⟩
    · rw [hcall]
      exact h
  | finish =>
    exact ⟨represents_new,
      forall_mem_append.mpr ⟨h.stores, forall_mem_singleton.mpr h.builder⟩⟩

theorem Accounted.steps (h : run.Accounted) (ops : List StoreOp) : (run.steps ops).Accounted := by
  induction ops generalizing run with
  | nil => exact h
  | cons op ops ih => exact ih (h.step op)

theorem accounted_start : start.Accounted := ⟨represents_new, by simp [start]⟩

theorem stores_step (run : StoreRun) (op : StoreOp) : run.stores <+: (run.step op).stores := by
  cases op with
  | finish => exact prefix_append _ _
  | new => exact prefix_refl _
  | fromStore | insertFragment | removeFragmentKey | clearIfExactFragments =>
    simp only [step]
    split <;> exact prefix_refl _

theorem stores_steps (run : StoreRun) (ops : List StoreOp) :
    run.stores <+: (run.steps ops).stores := by
  induction ops generalizing run with
  | nil => exact prefix_refl _
  | cons op ops ih => exact (run.stores_step op).trans (ih _)

/-- The sample store is an exact set of fragments. After every sequence of calls the builder and
every finished store read as the fragments inserted and not removed; a failed call changes nothing,
and a removal or a read fails only when an allocation does. -/
theorem sampleStore_exact (ops : List StoreOp) :
    let run := start.steps ops
    run.builder.Exact run.contents ∧ (∀ e ∈ run.stores, e.1.Exact e.2) ∧
      (∀ later, run.stores <+: (run.steps later).stores) ∧
      (∀ identity fragment faults error,
        (run.builder.insertFragment identity fragment faults).1 = .error error →
        (run.builder.insertFragment identity fragment faults).2 = run.builder) ∧
      (∀ fragment faults error,
        (run.builder.removeFragmentKey fragment faults).1 = .error error →
        (run.builder.removeFragmentKey fragment faults).2 = run.builder ∧ faults.Raises error) ∧
      (∀ exactFragments error,
        (run.builder.clearIfExactFragments exactFragments).1 = .error error →
        (run.builder.clearIfExactFragments exactFragments).2 = run.builder ∧
          run.builder.fragmentIdentities ≠ exactFragments) := by
  intro run
  have h : run.Accounted := accounted_start.steps ops
  refine ⟨h.builder.exact, fun e he => (h.stores e he).exact, run.stores_steps, ?_, ?_, ?_⟩
  · intro identity fragment faults error herror
    rcases run.builder.insertFragment_cases (identity, fragment) faults with
      ⟨store', hcall, -⟩ | ⟨error', hcall⟩
    · rw [hcall] at herror
      cases herror
    · rw [hcall]
  · intro fragment faults error herror
    rcases h.builder.removeFragmentKey_cases fragment faults with
      ⟨keys, store', hcall, -⟩ | ⟨error', hcall, hraises⟩
    · rw [hcall] at herror
      cases herror
    · rw [hcall] at herror ⊢
      exact ⟨rfl, Except.error.inj herror ▸ hraises⟩
  intro exactFragments error herror
  rcases h.builder.clearIfExactFragments_cases exactFragments with
    ⟨store', hcall, -, -⟩ | ⟨error', hcall, hne⟩
  · rw [hcall] at herror
    cases herror
  · rw [hcall]
    exact ⟨rfl, hne⟩

end StoreRun

end Chronoxide
