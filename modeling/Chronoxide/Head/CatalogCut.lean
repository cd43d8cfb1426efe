import Chronoxide.Head.LiveCatalogRun

/-! The cut that a live catalog is pinned to. No entry of a catalog comes from a later row of the label
store or from a later generation, so the checks of `head/catalog.rs` at a read pass. -/

namespace Chronoxide
open Codec Faults AvlMap

namespace CatalogMap

variable {κ ν : Type} [LinearOrder κ] {map : CatalogMap κ ν} {P : ν → Prop} {key : κ}

def All (map : CatalogMap κ ν) (P : ν → Prop) : Prop := ∀ key value, map.get key = some value → P value

theorem all_default : (default : CatalogMap κ ν).All P := fun _ _ h => nomatch h

theorem All.mono {Q : ν → Prop} (h : map.All P) (hmono : ∀ value, P value → Q value) : map.All Q :=
  fun key value hget => hmono value (h key value hget)

theorem All.insert (h : map.All P) {value : ν} (hvalue : P value) :
    Gives (fun _ => True) (fun map' : CatalogMap κ ν => map'.All P) (map.insert key value) := by
  refine (insert_gives value trivial).post fun map' hget k v hv => ?_
  rw [hget k] at hv
  split at hv
  · exact Option.some.inj hv ▸ hvalue
  · exact h k v hv

theorem All.take (h : map.All P) (missing : IoError) :
    Gives (fun _ => True) (fun map' : CatalogMap κ ν => map'.All P) (map.take key missing) := by
  obtain ⟨map', hremove, hget⟩ := map.exists_remove key
  unfold CatalogMap.take
  rw [hremove]
  refine (gives_require fun _ => trivial).bind fun _ _ k v hv => ?_
  rw [hget k] at hv
  split at hv
  · cases hv
  · exact h k v hv

end CatalogMap

def LabelMembership.Within (revision generation : Nat) (membership : LabelMembership) : Prop :=
  membership.rowRevision ≤ revision ∧ membership.bornGeneration ≤ generation

section
variable {κ : Type} [LinearOrder κ] {map : CatalogMap κ LabelMembership} {key : κ}
  {revision generation : Nat}

theorem CatalogMap.All.join (h : map.All (·.Within revision generation)) {rowRevision : Nat}
    (hrow : rowRevision ≤ revision) (overflows : IoError) :
    Gives (fun _ => True) (fun map' : CatalogMap κ LabelMembership =>
      map'.All (·.Within revision generation)) (map.join key rowRevision generation overflows) := by
  have hjoined : Gives (fun _ => True) (·.Within revision generation)
      (LabelMembership.joined (map.get key) rowRevision generation overflows) := by
    cases hget : map.get key with
    | none => exact ⟨hrow, le_rfl⟩
    | some existing =>
      refine (gives_require fun _ => trivial).bind fun _ _ => ⟨(min_le_right _ _).trans hrow, ?_⟩
      exact (h key existing hget).2
  exact hjoined.bind fun membership hmembership => h.insert hmembership

theorem CatalogMap.All.leave (h : map.All (·.Within revision generation))
    (disappeared notRetired : IoError) :
    Gives (fun _ => True) (fun map' : CatalogMap κ LabelMembership =>
      map'.All (·.Within revision generation)) (map.leave key disappeared notRetired) := by
  unfold CatalogMap.leave
  cases hget : map.get key with
  | none => trivial
  | some existing =>
    dsimp only
    split
    · exact h.take notRetired
    · exact h.insert (h key existing hget)

end

namespace LiveSeriesCatalog

variable {H : LabelHashes} {catalog builder builder' : LiveSeriesCatalog} {labels : CatalogLabels}
  {revision generation : Nat} {series : SeriesRef}

structure PinnedAt (revision generation : Nat) (catalog : LiveSeriesCatalog) : Prop where
  revision_eq : catalog.labels.revision = revision
  generation_eq : catalog.generation = generation
  active : catalog.active.All fun entry =>
    entry.rowRevision ≤ revision ∧ entry.bornGeneration ≤ generation
  postings : catalog.postings.All fun membership =>
    membership.rowRevision ≤ revision ∧ membership.bornGeneration ≤ generation
  names : catalog.names.All (·.Within revision generation)
  values : catalog.values.All (·.Within revision generation)

def Pinned (catalog : LiveSeriesCatalog) : Prop :=
  catalog.PinnedAt catalog.labels.revision catalog.generation

theorem PinnedAt.pinned (h : catalog.PinnedAt revision generation) : catalog.Pinned := by
  obtain ⟨rfl, rfl, -, -, -, -⟩ := id h
  exact h

theorem pinned_empty (labels : CatalogLabels) (generation : Nat) :
    (⟨labels, generation, .default, .default, .default, .default⟩ : LiveSeriesCatalog).Pinned :=
  ⟨rfl, rfl, CatalogMap.all_default, CatalogMap.all_default, CatalogMap.all_default,
    CatalogMap.all_default⟩

theorem Pinned.withLabels (h : catalog.Pinned) (hrevision : catalog.labels.revision ≤ labels.revision)
    (hgeneration : catalog.generation ≤ generation) :
    ({ catalog with labels, generation } : LiveSeriesCatalog).Pinned where
  revision_eq := rfl
  generation_eq := rfl
  active := h.active.mono fun _ hv => ⟨hv.1.trans hrevision, hv.2.trans hgeneration⟩
  postings := h.postings.mono fun _ hv => ⟨hv.1.trans hrevision, hv.2.trans hgeneration⟩
  names := h.names.mono fun _ hv => ⟨hv.1.trans hrevision, hv.2.trans hgeneration⟩
  values := h.values.mono fun _ hv => ⟨hv.1.trans hrevision, hv.2.trans hgeneration⟩

theorem activateLabel_pinned (h : builder.PinnedAt revision generation) {rowRevision : Nat}
    (hrow : rowRevision ≤ revision) (pair : InternedKeyValue) :
    Gives (fun _ => True) (PinnedAt revision generation)
      (activateLabel series rowRevision builder pair) := by
  obtain ⟨rfl, rfl, hactive, hpostings, hnames, hvalues⟩ := h
  refine (hnames.join hrow _).bind fun names hnames => ?_
  refine (gives_require fun _ => trivial).bind fun _ _ => ?_
  refine (hpostings.insert ⟨hrow, le_rfl⟩).bind fun postings hpostings => ?_
  refine (hvalues.join hrow _).bind fun values hvalues => ?_
  exact ⟨rfl, rfl, hactive, hpostings, hnames, hvalues⟩

theorem retireLabel_pinned (h : builder.PinnedAt revision generation) (pair : InternedKeyValue) :
    Gives (fun _ => True) (PinnedAt revision generation) (retireLabel series builder pair) := by
  refine (h.names.leave _ _).bind fun names hnames => ?_
  refine (h.postings.take _).bind fun postings hpostings => ?_
  refine (h.values.leave _ _).bind fun values hvalues => ?_
  exact ⟨h.revision_eq, h.generation_eq, h.active, hpostings, hnames, hvalues⟩

theorem gives_any {α : Type} (x : Except IoError α) : Gives (fun _ => True) (fun _ => True) x := by
  cases x <;> trivial

theorem activate_pinned (h : builder.PinnedAt revision generation) (series : SeriesRef) :
    Gives (fun _ => True) (PinnedAt revision generation) (builder.activate H series) := by
  refine (gives_require fun _ => trivial).bind fun _ _ => ?_
  refine (gives_require fun _ => trivial).bind fun _ hrow => ?_
  rw [h.revision_eq] at hrow
  refine (gives_any _).bind fun ⟨seriesId, pairs⟩ _ => ?_
  refine (h.active.insert ⟨hrow, h.generation_eq.le⟩).bind fun active hactive => ?_
  exact gives_foldlM (I := fun _ => PinnedAt revision generation)
    (fun pair _ _ _ hnext => activateLabel_pinned hnext hrow pair)
    ⟨h.revision_eq, h.generation_eq, hactive, h.postings, h.names, h.values⟩

theorem retire_pinned (h : builder.PinnedAt revision generation) (series : SeriesRef) :
    Gives (fun _ => True) (PinnedAt revision generation) (builder.retire H series) := by
  refine (gives_require fun _ => trivial).bind fun _ _ => ?_
  refine (gives_any _).bind fun ⟨seriesId, pairs⟩ _ => ?_
  refine (h.active.take _).bind fun active hactive => ?_
  exact gives_foldlM (I := fun _ => PinnedAt revision generation)
    (fun pair _ _ _ hnext => retireLabel_pinned hnext pair)
    ⟨h.revision_eq, h.generation_eq, hactive, h.postings, h.names, h.values⟩

theorem reconcileSeries_pinned (current target : List SeriesRef)
    (h : builder.PinnedAt revision generation) :
    Gives (fun _ => True) (PinnedAt revision generation)
      (reconcileSeries H current target builder) := by
  induction current, target, builder using reconcileSeries.induct with
  | case1 builder =>
    rw [reconcileSeries]
    exact h
  | case2 left current builder ih =>
    rw [reconcileSeries]
    exact (retire_pinned h left).bind fun next hnext => ih next hnext
  | case3 right target builder ih =>
    rw [reconcileSeries]
    exact (activate_pinned h right).bind fun next hnext => ih next hnext
  | case4 left current right target builder hlt ih =>
    rw [reconcileSeries, if_pos hlt]
    exact (retire_pinned h left).bind fun next hnext => ih next hnext
  | case5 left current right target builder hge hlt ih =>
    rw [reconcileSeries, if_neg hge, if_pos hlt]
    exact (activate_pinned h right).bind fun next hnext => ih next hnext
  | case6 left current right target builder hge hle ih =>
    rw [reconcileSeries, if_neg hge, if_neg hle]
    exact ih h

theorem reconciled_pinned (h : builder.Pinned) (samples : LiveSampleStore) (faults : CatalogFaults) :
    Gives (fun _ => True) Pinned (builder.reconciled H samples faults) := by
  refine (gives_require fun _ => trivial).bind fun _ _ => ?_
  refine (gives_any _).bind fun target _ => ?_
  refine (gives_any _).bind fun current _ => ?_
  exact (reconcileSeries_pinned current target h).post fun _ hnext => hnext.pinned

theorem validateSuccessor_generation (h : validateSuccessor H catalog labels generation = .ok ()) :
    generation = catalog.generation + 1 := by
  unfold validateSuccessor at h
  simp only [except_bind_ok, require_ok, exists_const] at h
  obtain ⟨-, -, -, -, -, hgeneration⟩ := h
  exact hgeneration

theorem kept_pinned (lineages : Nat → LabelLineage) : CatalogRun.Kept H lineages Pinned where
  new lineageId moment generation builder hok := by
    unfold LiveSeriesCatalog.new at hok
    simp only [except_bind_ok, except_pure_ok] at hok
    obtain ⟨-, -, -, -, rfl⟩ := hok
    exact pinned_empty _ generation
  fromCatalog previous lineageId moment generation builder h hok := by
    obtain ⟨hvalid, rfl⟩ := fromCatalog_ok hok
    have hgeneration := validateSuccessor_generation hvalid
    exact h.withLabels (validateSuccessor_ok hvalid).2 (by omega)
  emptySuccessor previous lineageId moment generation builder hok := by
    unfold LiveSeriesCatalog.emptySuccessor at hok
    simp only [except_bind_ok, except_pure_ok] at hok
    obtain ⟨_, -, rfl⟩ := hok
    exact pinned_empty _ generation
  reconcile builder samples faults h := by
    have hgives := reconciled_pinned (H := H) h samples faults
    unfold reconcileSampleStore
    cases hresult : builder.reconciled H samples faults with
    | ok builder' => rwa [hresult] at hgives
    | error error => exact h

end LiveSeriesCatalog

end Chronoxide
