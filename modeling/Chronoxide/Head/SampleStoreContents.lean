import Chronoxide.Head.SampleStore
import Mathlib.Data.List.Dedup

/-! The sample store as a set of fragments. The map holds, for every series and kind of a fragment
key, the runs of the fragments in the order of their insertion. -/

namespace Chronoxide
open List hiding dedup
open Codec Faults AvlMap SortedSet PersistentMap

abbrev StoredFragment := FrozenFragmentIdentity × SharedFragment

/-- The fragments that were inserted and not removed, in the order of their insertion. -/
abbrev StoreContents := List StoredFragment

variable {key : LiveSampleKey}

namespace StoredFragment

def hasRun (e : StoredFragment) (key : LiveSampleKey) : Prop :=
  e.1.key = key.fragment ∧ ∃ run ∈ e.2.runs, run.series = key.series ∧ run.kind = key.kind

instance (e : StoredFragment) (key : LiveSampleKey) : Decidable (e.hasRun key) :=
  inferInstanceAs (Decidable (_ ∧ _))

variable (e : StoredFragment)

def ref (key : LiveSampleKey) : FrozenRunRef :=
  ⟨key, e.1.orderRange.first, e.1.orderRange.last, e.2⟩

def keyOf (run : FrozenSeriesKey) : LiveSampleKey :=
  ⟨e.1.key, run.series, run.kind⟩

def refs : List FrozenRunRef := e.2.runs.map fun run => e.ref (e.keyOf run)

theorem hasRun_iff {e : StoredFragment} : e.hasRun key ↔ ∃ run ∈ e.2.runs, key = e.keyOf run := by
  obtain ⟨fragment, series, kind⟩ := key
  simp only [hasRun, keyOf, LiveSampleKey.mk.injEq]
  constructor
  · rintro ⟨rfl, run, hrun, rfl, rfl⟩
    exact ⟨run, hrun, rfl, rfl, rfl⟩
  · rintro ⟨run, hrun, rfl, rfl, rfl⟩
    exact ⟨rfl, run, hrun, rfl, rfl⟩

end StoredFragment

/-- The runs of one key, oldest insertion first. -/
def StoreContents.at (contents : StoreContents) (key : LiveSampleKey) : List FrozenRunRef :=
  (contents.filter (·.hasRun key)).map (·.ref key)

structure SampleMap.Holds (root : SampleMap) (refs : LiveSampleKey → List FrozenRunRef) : Prop where
  sound : ∀ key levels, root.get key = some levels → levels.Sound ∧ levels.identity.key = key ∧
    levels.leafRefs = refs key
  absent : ∀ key, root.get key = none → refs key = []

namespace LiveSampleStore

section Insert
variable {root : SampleMap} {revision : Nat} {candidate : SampleMap × Nat}
  {refs : LiveSampleKey → List FrozenRunRef} {e : StoredFragment} {faults : StoreFaults}
  {run : FrozenSeriesKey} {runs : List FrozenSeriesKey}

def Matches (e : StoredFragment) : Prop :=
  e.2.startMs = e.1.key.startMs ∧ e.2.endMs = e.1.key.endMs ∧ e.2.lane = e.1.key.lane

theorem descriptorIdentity_ok {codec : String} {identity : DescriptorIdentity}
    (h : SampleMap.Holds root refs) (hok : descriptorIdentity root key codec = .ok identity) :
    identity.key = key ∧ ∀ levels, root.get key = some levels → levels.identity = identity := by
  unfold descriptorIdentity at hok
  split at hok
  · rename_i levels hget
    split at hok
    · cases hok
    obtain rfl := Except.ok.inj hok
    refine ⟨(h.sound key levels hget).2.1, fun other hother => ?_⟩
    rw [Option.some.inj (hother.symm.trans hget)]
  · rename_i hget
    obtain rfl := Except.ok.inj hok
    refine ⟨rfl, fun levels hlevels => ?_⟩
    rw [hget] at hlevels
    cases hlevels

theorem levelsWith_ok {identity : DescriptorIdentity} {leaf : DescriptorNode}
    {fault : Option IoError} {levels : RunLevels} (h : SampleMap.Holds root refs)
    (hkey : identity.key = key)
    (hidentity : ∀ levels, root.get key = some levels → levels.identity = identity)
    (hleaf : RunLevels.RootAt identity (0, leaf))
    (hok : levelsWith root key leaf fault = .ok levels) :
    levels.Sound ∧ levels.identity.key = key ∧ levels.leafRefs = refs key ++ leaf.leafRefs := by
  unfold levelsWith at hok
  split at hok
  · rename_i old hget
    obtain ⟨hsound, -, hrefs⟩ := h.sound key old hget
    have hold := hidentity old hget
    obtain ⟨hsound', hrefs', hidentity'⟩ := RunLevels.append_ok hsound (hold.symm ▸ hleaf) hok
    refine ⟨hsound', ?_, ?_⟩
    · rw [hidentity', hold, hkey]
    · rw [hrefs', hrefs]
  rename_i hget
  obtain rfl := Except.ok.inj hok
  obtain ⟨hsound, hrefs, hidentity'⟩ := RunLevels.one_sound hleaf
  refine ⟨hsound, ?_, ?_⟩
  · rw [hidentity', hkey]
  · rw [hrefs, h.absent key hget, nil_append]

theorem insertRun_ok (hmatch : Matches e) (h : SampleMap.Holds root refs) (hrun : run ∈ e.2.runs)
    (hok : insertRun e.1 e.2 faults (root, revision) run = .ok candidate) :
    SampleMap.Holds candidate.1 (fun key =>
        if key = e.keyOf run then refs key ++ [e.ref key] else refs key) ∧
      candidate.2 = max revision (run.series.get.toNat + 1) := by
  simp only [insertRun, except_bind_ok, except_pure_ok] at hok
  obtain ⟨identity, hidentity, leaf, hleaf, levels, hlevels, root', hinsert, rfl⟩ := hok
  obtain ⟨hkey, hsame⟩ := descriptorIdentity_ok h hidentity
  obtain ⟨hroot, hrefs, -⟩ := RunLevels.newLeaf_ok hrun e.1.ordered
    (by rw [hkey]; exact hmatch.1) (by rw [hkey]; exact hmatch.2.1) (by rw [hkey]; exact hmatch.2.2)
    hleaf
  obtain ⟨hsound, hlevelsKey, hlevelsRefs⟩ := levelsWith_ok h hkey hsame hroot hlevels
  have hget := get_insert (show root.insert (e.keyOf run) levels = _ from hinsert)
  refine ⟨⟨fun key other hother => ?_, fun key hnone => ?_⟩, rfl⟩
  · rw [hget] at hother
    split at hother
    · rename_i hkey'
      obtain rfl := Option.some.inj hother
      rw [if_pos hkey', hkey']
      refine ⟨hsound, hlevelsKey, ?_⟩
      rw [hlevelsRefs, hrefs, hkey]
      rfl
    · rename_i hne
      rw [if_neg hne]
      exact h.sound key other hother
  rw [hget] at hnone
  split at hnone
  · cases hnone
  · rename_i hne
    rw [if_neg hne]
    exact h.absent key hnone

def added (e : StoredFragment) (runs : List FrozenSeriesKey) (key : LiveSampleKey) :
    List FrozenRunRef :=
  if ∃ run ∈ runs, key = e.keyOf run then [e.ref key] else []

theorem added_cons (hnew : ∀ later ∈ runs, run.sortKey < later.sortKey) (key : LiveSampleKey) :
    (if key = e.keyOf run then refs key ++ [e.ref key] else refs key) ++ added e runs key =
      refs key ++ added e (run :: runs) key := by
  unfold added
  by_cases hkey : key = e.keyOf run
  · have hnone : ¬∃ later ∈ runs, key = e.keyOf later := by
      rintro ⟨later, hlater, heq⟩
      have hlt := hnew later hlater
      rw [hkey, StoredFragment.keyOf, StoredFragment.keyOf, LiveSampleKey.mk.injEq] at heq
      rw [FrozenSeriesKey.sortKey, FrozenSeriesKey.sortKey, heq.2.1, heq.2.2] at hlt
      exact hlt.false
    rw [if_pos hkey, if_neg hnone, append_nil, if_pos ⟨run, mem_cons_self, hkey⟩]
  · rw [if_neg hkey]
    simp [hkey]

theorem insertRuns_ok (hmatch : Matches e) (h : SampleMap.Holds root refs)
    (hruns : ∀ run ∈ runs, run ∈ e.2.runs) (hsorted : runs.Pairwise (·.sortKey < ·.sortKey))
    (hok : runs.foldlM (insertRun e.1 e.2 faults) (root, revision) = .ok candidate) :
    SampleMap.Holds candidate.1 (fun key => refs key ++ added e runs key) ∧
      revision ≤ candidate.2 ∧ ∀ run ∈ runs, run.series.get.toNat + 1 ≤ candidate.2 := by
  induction runs generalizing root revision refs with
  | nil =>
    rw [foldlM_nil, except_pure_ok] at hok
    subst hok
    refine ⟨?_, le_rfl, fun _ hrun => (by cases hrun)⟩
    simpa [added] using h
  | cons run runs ih =>
    rw [foldlM_cons, except_bind_ok] at hok
    obtain ⟨⟨root', revision'⟩, hrun, hok⟩ := hok
    obtain ⟨hnew, hsorted⟩ := pairwise_cons.mp hsorted
    obtain ⟨hholds, hrevision⟩ := insertRun_ok hmatch h (hruns run mem_cons_self) hrun
    obtain ⟨hall, hle, hseries⟩ := ih hholds
      (fun later hlater => hruns later (mem_cons_of_mem _ hlater)) hsorted hok
    have hrevision' : revision' = max revision (run.series.get.toNat + 1) := hrevision
    refine ⟨?_, by omega, ?_⟩
    · simpa [added_cons hnew] using hall
    · exact forall_mem_cons.mpr ⟨by omega, hseries⟩

end Insert

structure Represents (store : LiveSampleStore) (contents : StoreContents) : Prop where
  identities : Is store.fragmentIdentities (· ∈ contents.map Prod.fst)
  distinct : (contents.map Prod.fst).Nodup
  count : store.fragmentCount = contents.length
  count_lt : contents.length < 2 ^ 64
  nonempty : ∀ e ∈ contents, e.2.runs ≠ []
  revision : ∀ e ∈ contents, ∀ run ∈ e.2.runs,
    run.series.get.toNat + 1 ≤ store.requiredCatalogRevision
  holds : store.root.Holds contents.at

variable {store store' : LiveSampleStore} {contents : StoreContents}

theorem Represents.eq_of_identity (h : store.Represents contents) {a b : StoredFragment}
    (ha : a ∈ contents) (hb : b ∈ contents) (heq : a.1 = b.1) : a = b :=
  inj_on_of_nodup_map h.distinct ha hb heq

theorem represents_new : new.Represents [] where
  identities := Is.nil (by simp)
  distinct := nodup_nil
  count := rfl
  count_lt := by decide
  nonempty := by simp
  revision := by simp
  holds := ⟨fun _ _ h => (by cases h), fun _ _ => rfl⟩

theorem at_concat (contents : StoreContents) (e : StoredFragment) (key : LiveSampleKey) :
    StoreContents.at (contents ++ [e]) key = contents.at key ++ added e e.2.runs key := by
  rw [StoreContents.at, StoreContents.at, filter_append, map_append, added]
  congr 1
  simp only [← StoredFragment.hasRun_iff, filter_cons, filter_nil, decide_eq_true_eq]
  split <;> rfl

def StoreContents.insert (contents : StoreContents) (e : StoredFragment) : StoreContents :=
  if e.2.runs.isEmpty then contents else contents ++ [e]

theorem Represents.insertedFragment (h : store.Represents contents) {e : StoredFragment}
    {faults : StoreFaults} (hok : store.insertedFragment e.1 e.2 faults = .ok store') :
    store'.Represents (StoreContents.insert contents e) := by
  unfold LiveSampleStore.insertedFragment at hok
  rw [StoreContents.insert]
  rw [except_bind_ok] at hok
  obtain ⟨_, hmatch, hok⟩ := hok
  rw [require_ok] at hmatch
  split at hok
  · rename_i hempty
    rw [except_pure_ok] at hok
    rw [if_pos hempty, ← hok]
    exact h
  rename_i hsome
  simp only [except_bind_ok, require_ok, exists_const, except_pure_ok] at hok
  obtain ⟨hnew, candidate, hcandidate, hcount, rfl⟩ := hok
  obtain ⟨hholds, hrevision, hseries⟩ := insertRuns_ok hmatch h.holds (fun _ hrun => hrun) e.2.sorted
    hcandidate
  rw [if_neg hsome]
  have hmem : e.1 ∉ contents.map Prod.fst := fun hmem => hnew ((h.identities.mem_iff _).mpr hmem)
  have hone : Is [e.1] (· = e.1) := ⟨pairwise_singleton _ _, fun x => mem_singleton⟩
  constructor
  · refine (h.identities.union hone).congr fun identity => ?_
    rw [map_append, mem_append, map_singleton, mem_singleton]
  · rw [map_append, map_singleton]
    exact nodup_append_comm.mp (nodup_cons.mpr ⟨hmem, h.distinct⟩)
  · change store.fragmentCount + 1 = _
    rw [h.count, length_append, length_singleton]
  · rw [h.count] at hcount
    rwa [length_append, length_singleton]
  · exact forall_mem_append.mpr
      ⟨h.nonempty, forall_mem_singleton.mpr (by simpa using hsome)⟩
  · exact forall_mem_append.mpr ⟨fun other hother run hrun =>
      (h.revision other hother run hrun).trans hrevision, forall_mem_singleton.mpr hseries⟩
  · rw [show StoreContents.at (contents ++ [e]) = fun key => contents.at key ++ added e e.2.runs key
      from funext (at_concat contents e)]
    exact hholds

variable {ref : FrozenRunRef}

theorem mem_at : ref ∈ contents.at key ↔ ∃ e ∈ contents, e.hasRun key ∧ ref = e.ref key := by
  simp [StoreContents.at, and_assoc, @eq_comm _ ref]

theorem Represents.mem_at_iff (h : store.Represents contents) :
    ref ∈ contents.at key ↔
      ∃ levels, (key, levels) ∈ store.root.toList ∧ ref ∈ levels.leafRefs := by
  simp only [mem_toList]
  cases hget : store.root.get key with
  | none => simp [h.holds.absent _ hget]
  | some levels => simp [(h.holds.sound _ _ hget).2.2]

theorem Represents.mem_leafRefs (h : store.Represents contents) {p : LiveSampleKey → Bool} :
    ref ∈ ((store.root.toList.filter fun e => p e.1).flatMap fun e => e.2.leafRefs) ↔
      ∃ e ∈ contents, ∃ run ∈ e.2.runs, p (e.keyOf run) ∧ ref = e.ref (e.keyOf run) := by
  simp only [mem_flatMap, mem_filter]
  constructor
  · rintro ⟨⟨key, levels⟩, ⟨hmem, hp⟩, hleaf⟩
    obtain ⟨e, he, hhas, rfl⟩ := mem_at.mp (h.mem_at_iff.mpr ⟨levels, hmem, hleaf⟩)
    obtain ⟨run, hrun, rfl⟩ := StoredFragment.hasRun_iff.mp hhas
    exact ⟨e, he, run, hrun, hp, rfl⟩
  rintro ⟨e, he, run, hrun, hp, rfl⟩
  obtain ⟨levels, hmem, hleaf⟩ := h.mem_at_iff.mp
    (mem_at.mpr ⟨e, he, StoredFragment.hasRun_iff.mpr ⟨run, hrun, rfl⟩, rfl⟩)
  exact ⟨(_, levels), ⟨hmem, hp⟩, hleaf⟩

theorem foldlM_removeKey {keys : List LiveSampleKey} {root : SampleMap} (hnodup : keys.Nodup)
    (hpresent : ∀ key ∈ keys, (root.get key).isSome) :
    ∃ root', keys.foldlM removeKey root = .ok root' ∧
      ∀ key, root'.get key = if key ∈ keys then none else root.get key := by
  induction keys generalizing root with
  | nil => exact ⟨root, rfl, by simp⟩
  | cons key keys ih =>
    obtain ⟨hnew, hnodup⟩ := nodup_cons.mp hnodup
    obtain ⟨root₁, hremove, hget⟩ := root.exists_remove key
    have hstep : removeKey root key = .ok root₁ := by
      rw [removeKey, hremove, hpresent key mem_cons_self]
      rfl
    obtain ⟨root', hfold, hrest⟩ := ih hnodup fun other hother => by
      rw [hget, if_neg fun heq : other = key => hnew (heq ▸ hother)]
      exact hpresent other (mem_cons_of_mem _ hother)
    refine ⟨root', ?_, fun other => ?_⟩
    · rw [foldlM_cons]
      exact except_bind_ok.mpr ⟨root₁, hstep, hfold⟩
    · rw [hrest, hget]
      grind

def StoreContents.removeKey (contents : StoreContents) (fragment : FrozenFragmentKey) :
    StoreContents :=
  contents.filter fun e => e.1.key ≠ fragment

theorem at_removeKey (contents : StoreContents) (fragment : FrozenFragmentKey)
    (key : LiveSampleKey) : (StoreContents.removeKey contents fragment).at key =
      if key.fragment = fragment then [] else contents.at key := by
  rw [StoreContents.removeKey, StoreContents.at, StoreContents.at, filter_filter]
  split
  · rename_i heq
    rw [filter_eq_nil_iff.mpr, map_nil]
    intro e _
    simp only [Bool.and_eq_true, decide_eq_true_eq, not_and]
    intro hrun hne
    exact hne (hrun.1.trans heq)
  rename_i hne
  congr 1
  refine filter_congr fun e _ => ?_
  rw [Bool.eq_iff_iff, Bool.and_eq_true, decide_eq_true_eq, decide_eq_true_eq, and_iff_left_iff_imp]
  intro hrun heq
  exact hne (hrun.1.symm.trans heq)

theorem Represents.removeKey_holds (h : store.Represents contents) {root : SampleMap}
    {fragment : FrozenFragmentKey}
    (hget : ∀ key : LiveSampleKey,
      root.get key = if key.fragment = fragment then none else store.root.get key) :
    root.Holds (StoreContents.removeKey contents fragment).at := by
  constructor
  · intro key levels hlevels
    rw [hget, Option.ite_none_left_eq_some] at hlevels
    rw [at_removeKey, if_neg hlevels.1]
    exact h.holds.sound key levels hlevels.2
  intro key hnone
  rw [hget] at hnone
  rw [at_removeKey]
  split
  · rfl
  · rename_i hne
    exact h.holds.absent key ((if_neg hne).symm.trans hnone)

def retiredBy (contents : StoreContents) (fragment : FrozenFragmentKey) :
    List (RecordedSampleOrder × RecordedSampleOrder × Nat) :=
  (contents.filter fun e => e.1.key = fragment).map fun e =>
    (e.1.orderRange.first, e.1.orderRange.last, e.2.address)

theorem Represents.length_retired (h : store.Represents contents) (fragment : FrozenFragmentKey) :
    (((store.root.toList.filter fun e => e.1.fragment = fragment).flatMap fun e =>
        e.2.leafRefs).map retiredRange).dedup.length =
      (contents.filter fun e => e.1.key = fragment).length := by
  have hnodup : (retiredBy contents fragment).Nodup := by
    have hdistinct := (h.distinct.of_map).filter fun e => decide (e.1.key = fragment)
    refine Nodup.map_on (fun a ha b hb heq => ?_) hdistinct
    obtain ⟨ha, hakey⟩ := mem_filter.mp ha
    obtain ⟨hb, hbkey⟩ := mem_filter.mp hb
    rw [Prod.mk.injEq, Prod.mk.injEq] at heq
    obtain ⟨hfirst, hlast, -⟩ := heq
    exact h.eq_of_identity ha hb
      (FrozenFragmentIdentity.ext_of_orders (by simp_all) hfirst hlast)
  have hperm : (((store.root.toList.filter fun e => e.1.fragment = fragment).flatMap fun e =>
      e.2.leafRefs).map retiredRange).dedup.Perm (retiredBy contents fragment) := by
    refine (perm_ext_iff_of_nodup (nodup_dedup _) hnodup).mpr fun range => ?_
    rw [List.mem_dedup, List.mem_map]
    simp only [h.mem_leafRefs (p := fun key => decide (key.fragment = fragment))]
    simp only [retiredBy, mem_map, mem_filter, decide_eq_true_eq]
    constructor
    · rintro ⟨_, ⟨e, he, run, hrun, hkey, rfl⟩, rfl⟩
      exact ⟨e, ⟨he, hkey⟩, rfl⟩
    · rintro ⟨e, ⟨he, hkey⟩, rfl⟩
      obtain ⟨run, hrun⟩ := exists_mem_of_ne_nil _ (h.nonempty e he)
      exact ⟨_, ⟨e, he, run, hrun, hkey, rfl⟩, rfl⟩
  rw [hperm.length_eq, retiredBy, length_map]

theorem Represents.identities_perm (h : store.Represents contents) :
    store.fragmentIdentities.Perm (contents.map Prod.fst) :=
  (perm_ext_iff_of_nodup (h.identities.sorted.imp ne_of_lt) h.distinct).mpr
    h.identities.mem_iff

theorem inOrder_yields (store : LiveSampleStore) (faults : StoreFaults) :
    Yields faults.Raises (store.root.inOrder faults.map) store.root.toList := by
  cases hmap : faults.map with
  | some error => exact yields_error (.inr (.inl hmap))
  | none => exact .inl store.root.inOrder_none

theorem Represents.leaves_yields (h : store.Represents contents) (faults : StoreFaults)
    {e : LiveSampleKey × RunLevels} (he : e ∈ store.root.toList) (runs : List FrozenRunRef) :
    Yields faults.Raises (e.2.appendLeaves (faults.leaves e.1) runs) (runs ++ e.2.leafRefs) := by
  have hsound := (h.holds.sound e.1 e.2 (mem_toList.mp he)).1
  refine (hsound.appendLeaves_yields (faults.leaves e.1) runs).mono ?_
  rintro error ⟨level, hlevel⟩
  exact .inr (.inr ⟨e.1, level, hlevel⟩)

theorem Represents.removedFragment (h : store.Represents contents) (fragment : FrozenFragmentKey)
    (faults : StoreFaults) : ∃ store',
      Yields faults.Raises (store.removedFragment fragment faults)
        ((store.root.toList.filter fun e => e.1.fragment = fragment).length, store') ∧
      store'.Represents (StoreContents.removeKey contents fragment) := by
  have hretired := h.length_retired fragment
  set retired := store.root.toList.filter fun e => e.1.fragment = fragment with hretiredDef
  have hpresent : ∀ e ∈ retired, store.root.get e.1 = some e.2 ∧ e.1.fragment = fragment := by
    intro e he
    obtain ⟨hmem, hkey⟩ := mem_filter.mp he
    exact ⟨mem_toList.mp hmem, of_decide_eq_true hkey⟩
  -- the leaves of the retired keys
  have hranges : Yields faults.Raises (retired.foldlM (fun ranges e => do
      let leaves ← e.2.appendLeaves (faults.leaves e.1) []
      return ranges ++ leaves.map retiredRange) [])
      ((retired.flatMap fun e => e.2.leafRefs).map retiredRange) := by
    rw [map_flatMap, flatMap_eq_foldl]
    refine yields_foldlM (fun ranges e he => ?_) []
    exact (h.leaves_yields faults (mem_filter.mp he).1 []).bind yields_ok
  -- the keys are distinct, and they are in the map
  have hnodup : (retired.map Prod.fst).Nodup := by
    have hsorted := store.root.sorted_toList.sublist
      (filter_sublist (p := fun e => decide (e.1.fragment = fragment)))
    exact (pairwise_map.mpr hsorted).imp ne_of_lt
  have hsome : ∀ key ∈ retired.map Prod.fst, (store.root.get key).isSome := by
    intro key hkey
    obtain ⟨e, he, rfl⟩ := mem_map.mp hkey
    rw [(hpresent e he).1]
    rfl
  obtain ⟨root, hroot, hget⟩ := foldlM_removeKey hnodup hsome
  have hcount : (contents.filter fun e => e.1.key = fragment).length ≤ store.fragmentCount := by
    rw [h.count]
    exact length_filter_le _ _
  have hcertificate : (store.fragmentIdentities.filter fun identity =>
      identity.key = fragment).length = (contents.filter fun e => e.1.key = fragment).length := by
    rw [(h.identities_perm.filter _).length_eq, filter_map, length_map]
    rfl
  have hkeys : ∀ key : LiveSampleKey, key ∉ retired.map Prod.fst → key.fragment = fragment →
      store.root.get key = none := by
    intro key hnot hkey
    by_contra hget
    obtain ⟨levels, hlevels⟩ := Option.ne_none_iff_exists'.mp hget
    apply hnot
    refine mem_map.mpr ⟨(key, levels), mem_filter.mpr ⟨?_, decide_eq_true hkey⟩, rfl⟩
    exact mem_toList.mpr hlevels
  refine ⟨⟨root, store.fragmentCount - (contents.filter fun e => e.1.key = fragment).length,
    store.requiredCatalogRevision,
    store.fragmentIdentities.filter fun identity => identity.key ≠ fragment⟩, ?_, ?_⟩
  · unfold LiveSampleStore.removedFragment
    refine (store.inOrder_yields faults).bind (hranges.bind (Yields.bind (.inl hroot)
      ((yields_require ?_).bind ((yields_require ?_).bind ?_))))
    · rw [hretired]
      exact hcount
    · rw [hretired]
      exact hcertificate
    · rw [hretired]
      exact yields_ok
  constructor
  · refine (h.identities.filter).congr fun identity => ?_
    simp only [StoreContents.removeKey, mem_map, mem_filter, decide_eq_true_eq]
    constructor
    · rintro ⟨⟨e, he, rfl⟩, hne⟩
      exact ⟨e, ⟨he, hne⟩, rfl⟩
    · rintro ⟨e, ⟨he, hne⟩, rfl⟩
      exact ⟨⟨e, he, rfl⟩, hne⟩
  · exact h.distinct.sublist (filter_sublist.map _)
  · have hsplit := length_eq_length_filter_add
      (l := contents) fun e => decide (e.1.key = fragment)
    simp only [h.count, StoreContents.removeKey, ne_eq, decide_not]
    omega
  · exact (length_filter_le _ _).trans_lt h.count_lt
  · exact fun e he => h.nonempty e (mem_filter.mp he).1
  · exact fun e he => h.revision e (mem_filter.mp he).1
  refine h.removeKey_holds fun key => (hget key).trans ?_
  by_cases hmem : key ∈ retired.map Prod.fst
  · obtain ⟨e, he, rfl⟩ := mem_map.mp hmem
    rw [if_pos hmem, if_pos (hpresent e he).2]
  rw [if_neg hmem]
  split
  · exact hkeys key hmem (by assumption)
  · rfl

theorem Represents.root_isNil (h : store.Represents contents) :
    store.root.root.isNil = (store.fragmentCount == 0) := by
  have hnil : store.root.root.isNil = true ↔ store.root.root = .nil := by
    cases store.root.root <;> simp [Tree.isNil]
  rw [Bool.eq_iff_iff, hnil, root_eq_nil_iff, beq_iff_eq, h.count, length_eq_zero_iff]
  constructor
  · intro hempty
    by_contra hne
    obtain ⟨e, he⟩ := exists_mem_of_ne_nil _ hne
    obtain ⟨run, hrun⟩ := exists_mem_of_ne_nil _ (h.nonempty e he)
    have hleaf := (h.mem_leafRefs (p := fun _ => true)).mpr ⟨e, he, run, hrun, rfl, rfl⟩
    rw [hempty] at hleaf
    cases hleaf
  · rintro rfl
    rw [eq_nil_iff_forall_not_mem]
    rintro ⟨key, levels⟩ hmem
    obtain ⟨hsound, -, hrefs⟩ := h.holds.sound key levels (mem_toList.mp hmem)
    exact hsound.leafRefs_ne_nil hrefs

theorem Represents.validateExact (h : store.Represents contents)
    (exactFragments : List FrozenFragmentIdentity) (mismatch : String) :
    store.validateExactFragmentCertificate exactFragments mismatch =
      require (store.fragmentIdentities = exactFragments) (invalidData mismatch) := by
  have hlength : store.fragmentIdentities.length = store.fragmentCount := by
    rw [h.identities_perm.length_eq, length_map, h.count]
  unfold validateExactFragmentCertificate
  rw [require_pos hlength, require_pos h.root_isNil]
  rfl

theorem mem_foldl_series (entries : List (LiveSampleKey × RunLevels)) (seen : List SeriesRef)
    (series : SeriesRef) :
    series ∈ entries.foldl (fun (seen : List SeriesRef) e =>
        if seen.getLast? = some e.1.series then seen else seen ++ [e.1.series]) seen ↔
      series ∈ seen ∨ ∃ e ∈ entries, e.1.series = series := by
  induction entries generalizing seen with
  | nil => simp
  | cons e entries ih =>
    rw [foldl_cons, ih]
    simp only [mem_cons, exists_eq_or_imp]
    split
    · rename_i hlast
      have hmem : e.1.series = series → series ∈ seen :=
        fun heq => heq ▸ mem_of_getLast? hlast
      rw [← or_assoc, or_iff_left_of_imp hmem]
    · rw [mem_append, mem_singleton, or_assoc, eq_comm]

theorem Represents.mem_keys (h : store.Represents contents) (key : LiveSampleKey) :
    (∃ levels, (key, levels) ∈ store.root.toList) ↔ ∃ e ∈ contents, e.hasRun key := by
  constructor
  · rintro ⟨levels, hmem⟩
    obtain ⟨hsound, -, hrefs⟩ := h.holds.sound key levels (mem_toList.mp hmem)
    obtain ⟨ref, href⟩ := exists_mem_of_ne_nil _ hsound.leafRefs_ne_nil
    rw [hrefs] at href
    obtain ⟨e, he, hrun, -⟩ := mem_at.mp href
    exact ⟨e, he, hrun⟩
  · rintro ⟨e, he, hrun⟩
    obtain ⟨levels, hmem, -⟩ := h.mem_at_iff.mp (mem_at.mpr ⟨e, he, hrun, rfl⟩)
    exact ⟨levels, hmem⟩

def StoreContents.HasSeries (contents : StoreContents) (series : SeriesRef) : Prop :=
  ∃ e ∈ contents, ∃ run ∈ e.2.runs, run.series = series

theorem activeSeriesRefs_yields (store : LiveSampleStore) (faults : StoreFaults) :
    ∃ series, Yields faults.Raises (store.activeSeriesRefs faults) series ∧
      Is series (fun ref => ∃ e ∈ store.root.toList, e.1.series = ref) := by
  refine ⟨dedup ((listSeries store.root.toList).mergeSort (· ≤ ·)), ?_,
    ⟨sorted_dedup_mergeSort _, fun series => ?_⟩⟩
  · unfold LiveSampleStore.activeSeriesRefs
    cases hreserve : faults.reserve with
    | some error => exact yields_error (.inl hreserve)
    | none => exact (store.inOrder_yields faults).bind yields_ok
  · rw [mem_dedup_mergeSort, listSeries, mem_foldl_series]
    simp

theorem Represents.activeSeriesRefs (h : store.Represents contents) (faults : StoreFaults) :
    ∃ series, Yields faults.Raises (store.activeSeriesRefs faults) series ∧
      Is series (StoreContents.HasSeries contents) := by
  obtain ⟨series, hyields, hsorted, hmem⟩ := store.activeSeriesRefs_yields faults
  refine ⟨series, hyields, hsorted, fun ref => (hmem ref).trans ?_⟩
  constructor
  · rintro ⟨⟨key, levels⟩, hmem, rfl⟩
    obtain ⟨e, he, hhas⟩ := (h.mem_keys key).mp ⟨levels, hmem⟩
    obtain ⟨run, hrun, rfl⟩ := StoredFragment.hasRun_iff.mp hhas
    exact ⟨e, he, run, hrun, rfl⟩
  rintro ⟨e, he, run, hrun, rfl⟩
  obtain ⟨levels, hmem⟩ := (h.mem_keys (e.keyOf run)).mpr
    ⟨e, he, StoredFragment.hasRun_iff.mpr ⟨run, hrun, rfl⟩⟩
  exact ⟨_, hmem, rfl⟩

def visibleRuns (contents : StoreContents) (startMs endMs : UInt64) : List FrozenRunRef :=
  if endMs < startMs then []
  else (contents.flatMap StoredFragment.refs).filter fun ref =>
    ref.key.fragment.overlaps startMs endMs

theorem mem_visibleRuns {startMs endMs : UInt64} (hrange : ¬endMs < startMs) :
    ref ∈ visibleRuns contents startMs endMs ↔
      ∃ e ∈ contents, ∃ run ∈ e.2.runs, (e.keyOf run).fragment.overlaps startMs endMs = true ∧
        ref = e.ref (e.keyOf run) := by
  rw [visibleRuns, if_neg hrange]
  simp only [mem_filter, mem_flatMap, StoredFragment.refs, mem_map]
  constructor
  · rintro ⟨⟨e, he, run, hrun, rfl⟩, hoverlaps⟩
    exact ⟨e, he, run, hrun, hoverlaps, rfl⟩
  · rintro ⟨e, he, run, hrun, hoverlaps, rfl⟩
    exact ⟨⟨e, he, run, hrun, rfl⟩, hoverlaps⟩

section
variable (h : store.Represents contents)
include h

theorem Represents.ref_inj {a b : StoredFragment} (ha : a ∈ contents) (hb : b ∈ contents)
    {key key' : LiveSampleKey} (hakey : a.1.key = key.fragment) (hbkey : b.1.key = key'.fragment)
    (heq : (a.ref key).readOrderKey = (b.ref key').readOrderKey) : a = b ∧ key = key' := by
  obtain ⟨hkey, hfirst, hlast⟩ := FrozenRunRef.readOrderKey_inj heq
  have hkey' : key = key' := hkey
  refine ⟨h.eq_of_identity ha hb (FrozenFragmentIdentity.ext_of_orders ?_ hfirst hlast), hkey'⟩
  rw [hakey, hbkey, hkey']

theorem Represents.nodup_at (key : LiveSampleKey) : (contents.at key).Nodup := by
  refine Nodup.map_on (fun a ha b hb heq => ?_) (h.distinct.of_map.filter _)
  obtain ⟨ha, hakey⟩ := mem_filter.mp ha
  obtain ⟨hb, hbkey⟩ := mem_filter.mp hb
  exact (h.ref_inj ha hb (of_decide_eq_true hakey).1 (of_decide_eq_true hbkey).1
    (congrArg _ heq)).1

theorem Represents.nodup_visibleRuns (startMs endMs : UInt64) :
    (visibleRuns contents startMs endMs).Nodup := by
  unfold visibleRuns
  split
  · exact nodup_nil
  refine Nodup.filter _ (nodup_flatMap.mpr ⟨fun e he => ?_, ?_⟩)
  · refine Nodup.map_on (fun run hrun run' hrun' heq => ?_) (e.2.sorted.imp fun hlt heq => ?_)
    · have hkey : e.keyOf run = e.keyOf run' := congrArg FrozenRunRef.key heq
      have hfound := SharedFragment.runExact_of_mem hrun
      rw [StoredFragment.keyOf, StoredFragment.keyOf, LiveSampleKey.mk.injEq] at hkey
      rw [hkey.2.1, hkey.2.2, SharedFragment.runExact_of_mem hrun'] at hfound
      exact (Option.some.inj hfound).symm
    · rw [heq] at hlt
      exact hlt.false
  · refine List.Pairwise.imp_of_mem (fun {a b} ha hb hne => ?_) h.distinct.of_map
    intro ref hrefa hrefb
    obtain ⟨run, -, rfl⟩ := mem_map.mp hrefa
    obtain ⟨run', -, heq⟩ := mem_map.mp hrefb
    exact hne (h.ref_inj ha hb rfl rfl (congrArg _ heq.symm)).1

theorem Represents.leafRefs_perm {startMs endMs : UInt64}
    (hrange : ¬endMs < startMs) :
    ((store.root.toList.filter fun e => e.1.fragment.overlaps startMs endMs).flatMap fun e =>
      e.2.leafRefs).Perm (visibleRuns contents startMs endMs) := by
  refine (perm_ext_iff_of_nodup ?_ (h.nodup_visibleRuns startMs endMs)).mpr fun ref => ?_
  · have hrefs : ∀ e ∈ store.root.toList, e.2.leafRefs = contents.at e.1 := fun e he =>
      (h.holds.sound e.1 e.2 (mem_toList.mp he)).2.2
    refine nodup_flatMap.mpr ⟨fun e he => ?_, ?_⟩
    · rw [hrefs e (mem_filter.mp he).1]
      exact h.nodup_at e.1
    refine List.Pairwise.imp_of_mem (fun {a b} ha hb hlt => ?_)
      (store.root.sorted_toList.sublist filter_sublist)
    intro ref hrefa hrefb
    dsimp only at hrefa hrefb
    rw [hrefs a (mem_filter.mp ha).1, mem_at] at hrefa
    rw [hrefs b (mem_filter.mp hb).1, mem_at] at hrefb
    obtain ⟨e, -, -, rfl⟩ := hrefa
    obtain ⟨e', -, -, heq⟩ := hrefb
    have hkey : a.1 = b.1 := congrArg FrozenRunRef.key heq
    rw [hkey] at hlt
    exact hlt.false
  · rw [h.mem_leafRefs (p := fun key => key.fragment.overlaps startMs endMs),
      mem_visibleRuns hrange]

theorem Represents.orderedRuns (startMs endMs : UInt64)
    (faults : StoreFaults) :
    ∃ runs, Yields faults.Raises (store.orderedRuns startMs endMs faults) runs ∧
      runs.Perm (visibleRuns contents startMs endMs) ∧
      runs.Pairwise (·.readOrderKey < ·.readOrderKey) := by
  unfold LiveSampleStore.orderedRuns
  split
  · rename_i hrange
    refine ⟨[], yields_ok, ?_, List.Pairwise.nil⟩
    rw [visibleRuns, if_pos hrange]
  rename_i hrange
  set overlapping := store.root.toList.filter fun e => e.1.fragment.overlaps startMs endMs
    with hoverlapping
  have hperm : (overlapping.flatMap fun e => e.2.leafRefs).Perm
      (visibleRuns contents startMs endMs) := h.leafRefs_perm hrange
  have hleaves : Yields faults.Raises (overlapping.foldlM
      (fun runs e => e.2.appendLeaves (faults.leaves e.1) runs) [])
      (overlapping.flatMap fun e => e.2.leafRefs) := by
    rw [flatMap_eq_foldl]
    exact yields_foldlM (fun runs e he => h.leaves_yields faults (mem_filter.mp he).1 runs) []
  refine ⟨(overlapping.flatMap fun e => e.2.leafRefs).mergeSort fun left right =>
    left.readOrderKey ≤ right.readOrderKey, ?_, (mergeSort_perm _ _).trans hperm, ?_⟩
  · exact (store.inOrder_yields faults).bind (hleaves.bind yields_ok)
  -- sorted, and no two runs have the same place
  have hsorted : ((overlapping.flatMap fun e => e.2.leafRefs).mergeSort fun left right =>
      left.readOrderKey ≤ right.readOrderKey).Pairwise fun left right =>
        decide (left.readOrderKey ≤ right.readOrderKey) = true :=
    pairwise_mergeSort (by simpa using fun a b c => le_trans)
      (by simpa using fun a b => le_total _ _) _
  have hvisible := (mergeSort_perm (overlapping.flatMap fun e => e.2.leafRefs)
    fun left right => decide (left.readOrderKey ≤ right.readOrderKey)).trans hperm
  have hnodup := hvisible.nodup_iff.mpr (h.nodup_visibleRuns startMs endMs)
  refine (hsorted.and hnodup).imp_of_mem fun {a b} ha hb hab => ?_
  refine lt_of_le_of_ne (of_decide_eq_true hab.1) fun heq => hab.2 ?_
  obtain ⟨e, he, run, -, -, rfl⟩ := (mem_visibleRuns hrange).mp (hvisible.mem_iff.mp ha)
  obtain ⟨e', he', run', -, -, rfl⟩ := (mem_visibleRuns hrange).mp (hvisible.mem_iff.mp hb)
  obtain ⟨rfl, hkey⟩ := h.ref_inj he he' rfl rfl heq
  rw [hkey]

end

end LiveSampleStore

end Chronoxide
