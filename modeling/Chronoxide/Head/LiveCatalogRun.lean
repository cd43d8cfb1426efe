import Chronoxide.Head.LiveCatalogIndex

/-! Runs of catalog builders over growing label stores: new catalogs, successors, reconciliations with
sample stores and the catalogs that were finished on the way. -/

namespace Chronoxide
open Codec Faults AvlMap SortedSet List

namespace LiveSeriesCatalog

variable {H : LabelHashes} {catalog builder builder' : LiveSeriesCatalog} {labels : CatalogLabels}
  {generation : Nat}

theorem Reached.trans {builder'' : LiveSeriesCatalog} {active active' : SeriesRef → Prop}
    (h : Reached builder builder' active) (h' : Reached builder' builder'' active') :
    Reached builder builder'' active' :=
  ⟨h'.labels_eq.trans h.labels_eq, h'.generation_eq.trans h.generation_eq, h'.indexed,
    h'.active_iff⟩

theorem Reached.gives {active active' : SeriesRef → Prop}
    {x : Except IoError LiveSeriesCatalog} (h : Reached builder builder' active)
    (hx : Gives (SeriesError H builder'.labels) (Reached builder' · active') x) :
    Gives (SeriesError H builder.labels) (Reached builder · active') x := by
  rw [h.labels_eq] at hx
  exact hx.post fun last hlast => h.trans hlast

section
variable {current target settled : List SeriesRef} {left right : SeriesRef}

theorem retire_step (h : builder.Indexed)
    (hactive : ∀ series, series ∈ builder.active.keys ↔ series ∈ settled ++ left :: current)
    (hcurrent : Sorted (settled ++ left :: current)) :
    Gives (SeriesError H builder.labels) (Reached builder · (· ∈ settled ++ current))
      (builder.retire H left) := by
  refine (retire_gives h ((hactive left).mpr (by simp))).post fun next hnext => ?_
  refine ⟨hnext.labels_eq, hnext.generation_eq, hnext.indexed, fun series => ?_⟩
  rw [hnext.active_iff, hactive]
  have hnodup : (settled ++ left :: current).Nodup := hcurrent.imp fun hlt => hlt.ne
  have hleft : left ∉ settled ++ current := by
    rw [nodup_middle, nodup_cons] at hnodup
    exact hnodup.1
  simp only [mem_append, mem_cons] at hleft ⊢
  constructor
  · rintro ⟨hne, hmem | heq | hmem⟩
    · exact .inl hmem
    · exact absurd heq hne
    · exact .inr hmem
  · intro hmem
    exact ⟨fun heq => hleft (heq ▸ hmem), hmem.imp_right .inr⟩

theorem activate_step (h : builder.Indexed)
    (hactive : ∀ series, series ∈ builder.active.keys ↔ series ∈ settled ++ current)
    (hnew : right ∉ settled ++ current) :
    Gives (SeriesError H builder.labels) (Reached builder · (· ∈ (settled ++ [right]) ++ current))
      (builder.activate H right) := by
  refine (activate_gives h fun hmem => hnew ((hactive right).mp hmem)).post fun next hnext => ?_
  refine ⟨hnext.labels_eq, hnext.generation_eq, hnext.indexed, fun series => ?_⟩
  rw [hnext.active_iff, hactive]
  simp only [mem_append, mem_singleton]
  tauto

theorem sorted_settle (hcurrent : Sorted (settled ++ current))
    (htarget : Sorted (settled ++ right :: target)) (hless : ∀ series ∈ current, right < series) :
    Sorted ((settled ++ [right]) ++ current) ∧ right ∉ settled ++ current := by
  obtain ⟨hsettled, hcurrent, hcross⟩ := pairwise_append.mp hcurrent
  obtain ⟨-, -, htarget⟩ := pairwise_append.mp htarget
  have hright : ∀ series ∈ settled, series < right :=
    fun series hseries => htarget series hseries right mem_cons_self
  constructor
  · rw [append_assoc]
    refine pairwise_append.mpr ⟨hsettled, pairwise_cons.mpr ⟨hless, hcurrent⟩, ?_⟩
    intro a ha b hb
    rcases mem_cons.mp hb with rfl | hb
    · exact hright a ha
    · exact hcross a ha b hb
  · intro hmem
    rcases mem_append.mp hmem with hmem | hmem
    · exact lt_irrefl _ (hright right hmem)
    · exact lt_irrefl _ (hless right hmem)

/-- `settled` are the series of the target that were passed; the active series are those and the
current ones that are left. -/
theorem reconcileSeries_gives (h : builder.Indexed)
    (hactive : ∀ series, series ∈ builder.active.keys ↔ series ∈ settled ++ current)
    (hcurrent : Sorted (settled ++ current)) (htarget : Sorted (settled ++ target)) :
    Gives (SeriesError H builder.labels) (Reached builder · (· ∈ settled ++ target))
      (reconcileSeries H current target builder) := by
  induction current, target, builder using reconcileSeries.induct generalizing settled with
  | case1 builder =>
    rw [reconcileSeries]
    exact ⟨rfl, rfl, h, hactive⟩
  | case2 left current builder ih =>
    rw [reconcileSeries]
    refine (retire_step h hactive hcurrent).bind fun next hnext => ?_
    exact hnext.gives (ih next hnext.indexed hnext.active_iff
      (hcurrent.sublist (by simp)) htarget)
  | case3 right target builder ih =>
    obtain ⟨hsorted, hnew⟩ := sorted_settle hcurrent htarget (by simp)
    rw [append_cons] at htarget ⊢
    rw [reconcileSeries]
    refine (activate_step h hactive hnew).bind fun next hnext => ?_
    exact hnext.gives (ih next hnext.indexed hnext.active_iff hsorted htarget)
  | case4 left current right target builder hlt ih =>
    rw [reconcileSeries, if_pos hlt]
    refine (retire_step h hactive hcurrent).bind fun next hnext => ?_
    exact hnext.gives (ih next hnext.indexed hnext.active_iff
      (hcurrent.sublist (by simp)) htarget)
  | case5 left current right target builder hge hlt ih =>
    have htail := (pairwise_append.mp hcurrent).2.1
    have hless : ∀ series ∈ left :: current, right < series := forall_mem_cons.mpr
      ⟨hlt, fun series hseries => hlt.trans ((pairwise_cons.mp htail).1 series hseries)⟩
    obtain ⟨hsorted, hnew⟩ := sorted_settle hcurrent htarget hless
    rw [append_cons] at htarget ⊢
    rw [reconcileSeries, if_neg hge, if_pos hlt]
    refine (activate_step h hactive hnew).bind fun next hnext => ?_
    exact hnext.gives (ih next hnext.indexed hnext.active_iff hsorted htarget)
  | case6 left current right target builder hge hle ih =>
    obtain rfl : left = right := le_antisymm (not_lt.mp hle) (not_lt.mp hge)
    rw [append_cons] at htarget hcurrent ⊢
    rw [reconcileSeries, if_neg hge, if_neg hle]
    refine ih h (fun series => ?_) hcurrent htarget
    rw [hactive, append_cons]

end

inductive ReconcileError (H : LabelHashes) (labels : CatalogLabels) (samples : LiveSampleStore)
    (faults : CatalogFaults) : IoError → Prop
  | requires (h : labels.revision < samples.requiredCatalogRevision) :
      ReconcileError H labels samples faults (requiresRevision samples labels)
  | samples {error : IoError} (h : faults.samples.Raises error) :
      ReconcileError H labels samples faults error
  | entries {error : IoError} (h : faults.entries = some error) :
      ReconcileError H labels samples faults error
  | current {error : IoError} (h : faults.current = some error) :
      ReconcileError H labels samples faults error
  | series {error : IoError} (h : SeriesError H labels error) :
      ReconcileError H labels samples faults error

theorem activeSeriesRefs_gives (catalog : LiveSeriesCatalog) (entries reserve : Option IoError) :
    Yields (fun error => entries = some error ∨ reserve = some error)
      (catalog.activeSeriesRefs entries reserve) catalog.active.keys := by
  unfold activeSeriesRefs
  cases entries with
  | some error => exact yields_error (.inl rfl)
  | none =>
    rw [catalog.active.inOrder_none]
    cases reserve with
    | some error => exact yields_error (.inr rfl)
    | none => exact yields_ok

theorem reconciled_gives (h : builder.Indexed) (samples : LiveSampleStore)
    (faults : CatalogFaults) :
    Gives (ReconcileError H builder.labels samples faults)
      (Reached builder · fun series => ∃ e ∈ samples.root.toList, e.1.series = series)
      (builder.reconciled H samples faults) := by
  refine (gives_require fun hc => .requires (Nat.lt_of_not_le hc)).bind fun _ _ => ?_
  obtain ⟨target, hyields, hsorted, hmem⟩ := samples.activeSeriesRefs_yields faults.samples
  have htarget : Gives (ReconcileError H builder.labels samples faults) (· = target)
      (samples.activeSeriesRefs faults.samples) :=
    (hyields.mono fun _ he => .samples he).gives rfl
  refine htarget.bind ?_
  rintro target rfl
  have hcurrent : Gives (ReconcileError H builder.labels samples faults)
      (· = builder.active.keys) (builder.activeSeriesRefs faults.entries faults.current) :=
    ((builder.activeSeriesRefs_gives faults.entries faults.current).mono
      fun _ he => he.elim .entries .current).gives rfl
  refine hcurrent.bind ?_
  rintro _ rfl
  have hwalk : Gives (SeriesError H builder.labels) (Reached builder · (· ∈ [] ++ target))
      (reconcileSeries H builder.active.keys target builder) :=
    reconcileSeries_gives h (fun _ => Iff.rfl) builder.active.sorted_keys hsorted
  refine hwalk.mono (fun next hnext => ?_) fun _ he => ReconcileError.series he
  exact ⟨hnext.labels_eq, hnext.generation_eq, hnext.indexed,
    fun series => (hnext.active_iff series).trans (hmem series)⟩

theorem reconcileSampleStore_cases (h : builder.Indexed) (samples : LiveSampleStore)
    (faults : CatalogFaults) :
    (∃ builder', builder.reconcileSampleStore H samples faults = (.ok (), builder') ∧
      Reached builder builder' fun series => ∃ e ∈ samples.root.toList, e.1.series = series) ∨
    ∃ error, builder.reconcileSampleStore H samples faults = (.error error, builder) ∧
      ReconcileError H builder.labels samples faults error := by
  have hgives := reconciled_gives (H := H) h samples faults
  unfold reconcileSampleStore
  cases hresult : builder.reconciled H samples faults with
  | ok builder' => exact .inl ⟨builder', rfl, by rwa [hresult] at hgives⟩
  | error error => exact .inr ⟨error, rfl, by rwa [hresult] at hgives⟩

theorem reached_of_reconcileSampleStore {builder' : LiveSeriesCatalogBuilder} (h : builder.Indexed)
    {samples : LiveSampleStore} {faults : CatalogFaults}
    (hok : builder.reconcileSampleStore H samples faults = (.ok (), builder')) :
    Reached builder builder' fun series => ∃ e ∈ samples.root.toList, e.1.series = series := by
  rcases reconcileSampleStore_cases h samples faults with ⟨_, heq, hreached⟩ | ⟨_, heq, -⟩
  · cases hok.symm.trans heq
    exact hreached
  · cases hok.symm.trans heq

theorem indexed_empty (labels : CatalogLabels) (generation : Nat) :
    (⟨labels, generation, .default, .default, .default, .default⟩ : LiveSeriesCatalog).Indexed := by
  refine ⟨fun series hseries => absurd hseries not_mem_nil,
    CatalogMap.tallies_default fun _ => rfl, fun key => ?_, CatalogMap.tallies_default fun _ => rfl⟩
  exact iff_of_false Bool.false_ne_true fun h => absurd h.1 not_mem_nil

theorem Indexed.withLabels (h : catalog.Indexed)
    (hrows : catalog.labels.canonicalRows <+: labels.canonicalRows) :
    ({ catalog with labels, generation } : LiveSeriesCatalog).Indexed := by
  have hrow : ∀ series ∈ catalog.active.keys,
      labels.canonicalRows[series.get.toNat]? =
        catalog.labels.canonicalRows[series.get.toNat]? := by
    intro series hseries
    obtain ⟨row, hrow, -⟩ := h.rows series hseries
    obtain ⟨suffix, hsuffix⟩ := hrows
    rw [← hsuffix, List.getElem?_append_left (List.getElem?_eq_some_iff.mp hrow).1]
  have hrow' : ∀ series ∈ catalog.active.keys,
      ({ catalog with labels, generation } : LiveSeriesCatalog).row series =
        catalog.row series := by
    intro series hseries
    rw [row, row, hrow series hseries]
  refine ⟨fun series hseries => ?_, h.holds.names.congr fun name => ?_, fun key => ?_,
    h.holds.values.congr fun key => ?_⟩
  · exact hrow series hseries ▸ h.rows series hseries
  · refine List.countP_congr fun series hseries => ?_
    rw [hrow' series hseries]
  · rw [h.holds.postings key]
    refine and_congr_right fun hseries => ?_
    rw [hrow' key.series hseries]
  · refine List.countP_congr fun series hseries => ?_
    rw [hrow' series hseries]

theorem new_ok (h : new H labels generation = .ok builder) :
    builder.labels = labels ∧ builder.Indexed := by
  unfold new at h
  simp only [except_bind_ok, except_pure_ok] at h
  obtain ⟨-, -, -, -, rfl⟩ := h
  exact ⟨rfl, indexed_empty labels generation⟩

theorem validateSuccessor_ok (h : validateSuccessor H catalog labels generation = .ok ()) :
    labels.lineageId = catalog.labels.lineageId ∧ catalog.labels.revision ≤ labels.revision := by
  unfold validateSuccessor at h
  simp only [require_bind_ok] at h
  exact ⟨h.1, h.2.1⟩

theorem fromCatalog_ok (h : fromCatalog H catalog labels generation = .ok builder) :
    validateSuccessor H catalog labels generation = .ok () ∧
      builder = { catalog with labels, generation } := by
  unfold fromCatalog at h
  simp only [except_bind_ok, except_pure_ok] at h
  obtain ⟨_, hvalid, rfl⟩ := h
  exact ⟨hvalid, rfl⟩

theorem emptySuccessor_ok (h : emptySuccessor H catalog labels generation = .ok builder) :
    builder.labels = labels ∧ builder.Indexed := by
  unfold emptySuccessor at h
  simp only [except_bind_ok, except_pure_ok] at h
  obtain ⟨_, -, rfl⟩ := h
  exact ⟨rfl, indexed_empty labels generation⟩

theorem finish_ok (builder : LiveSeriesCatalogBuilder) : builder.finish = .ok builder := by
  unfold finish
  rw [builder.active.validateRoot_ok, builder.postings.validateRoot_ok,
    builder.names.validateRoot_ok, builder.values.validateRoot_ok]
  rfl

end LiveSeriesCatalog

/-- The snapshots that are taken from one label store. A later revision has the rows of an earlier
one. -/
structure LabelLineage where
  snapshots : Nat → VersionedFlatInternedLabelSetSnapshot
  appendOnly : ∀ i j, (snapshots i).revision ≤ (snapshots j).revision →
    (snapshots i).canonicalRows <+: (snapshots j).canonicalRows

namespace VersionedFlatInternedLabelSetStore
open Fallible

variable {H : LabelHashes} {faults : InternFaults}

structure Appends (store store' : VersionedFlatInternedLabelSetStore) : Prop where
  rows : store.rows <+: store'.rows
  canonicalRows : store.canonicalRows <+: store'.canonicalRows

theorem Appends.trans {store store' store'' : VersionedFlatInternedLabelSetStore}
    (h : store.Appends store') (h' : store'.Appends store'') : store.Appends store'' :=
  ⟨h.rows.trans h'.rows, h.canonicalRows.trans h'.canonicalRows⟩

theorem finishEncoded_appends (initial : VersionedFlatInternedLabelSetStore)
    (encoded canonical : List InternedKeyValue) :
    Triple initial.Appends (finishEncoded H faults encoded canonical)
      (fun _ => initial.Appends) (fun _ => initial.Appends) := by
  refine Triple.read fun store happends => ?_
  cases store.index.find (store.rows[·]?) encoded (H.labelsetHash encoded) with
  | some existing =>
    rintro _ rfl
    exact happends
  | none =>
    refine Triple.read fun store' hstore => ?_
    rw [hstore]
    refine Triple.ite (fun _ => ?_) fun _ => Triple.ite (fun _ => ?_) fun _ => ?_
    · rintro _ rfl
      exact happends
    · rintro _ rfl
      exact happends
    cases faults.row with
    | some error =>
      rintro _ rfl
      exact happends
    | none =>
      rintro _ rfl
      exact happends.trans ⟨prefix_append _ _, prefix_append _ _⟩

theorem internLabels_appends (store : VersionedFlatInternedLabelSetStore)
    (labels : List (String × String)) :
    store.Appends ((internLabels H faults labels).exec store).2 := by
  have htriple : Triple store.Appends (internLabels H faults labels) (fun _ => store.Appends)
      (fun _ => store.Appends) := by
    unfold internLabels
    cases faults.scratch with
    | some error => exact fun _ happends => happends
    | none =>
      refine Triple.seq (Q := fun _ => store.Appends) ?_
        fun pushed => Triple.read fun current hcurrent => ?_
      · -- the symbols are another part of the store
        refine Triple.zoom fun current hcurrent symbols _ => ?_
        rcases Program.exec _ symbols with ⟨error | pushed, symbols'⟩
        · exact ⟨hcurrent.rows, hcurrent.canonicalRows⟩
        · exact ⟨hcurrent.rows, hcurrent.canonicalRows⟩
      · refine (finishEncoded_appends store _ _).pre ?_
        rintro _ rfl
        exact hcurrent
  have hpost := htriple store ⟨prefix_rfl, prefix_rfl⟩
  revert hpost
  rcases (internLabels H faults labels).exec store with ⟨error | series, store'⟩
  · exact id
  · exact id

def after (H : LabelHashes) (maxSymbols maxSeries : Nat)
    (calls : Nat → InternFaults × List (String × String)) :
    Nat → VersionedFlatInternedLabelSetStore
  | 0 => empty maxSymbols maxSeries
  | n + 1 => ((internLabels H (calls n).1 (calls n).2).exec (after H maxSymbols maxSeries calls n)).2

section
variable {maxSymbols maxSeries : Nat} {calls : Nat → InternFaults × List (String × String)}

theorem reachable_after (n : Nat) : Reachable H (after H maxSymbols maxSeries calls n) := by
  induction n with
  | zero => exact .empty maxSymbols maxSeries
  | succ n ih => exact .intern _ _ ih

theorem after_appends {i j : Nat} (h : i ≤ j) :
    (after H maxSymbols maxSeries calls i).Appends (after H maxSymbols maxSeries calls j) := by
  induction j, h using Nat.le_induction with
  | base => exact ⟨prefix_rfl, prefix_rfl⟩
  | succ j _ ih => exact ih.trans (internLabels_appends _ _)

end

def lineage (H : LabelHashes) (maxSymbols maxSeries : Nat)
    (calls : Nat → InternFaults × List (String × String)) : LabelLineage where
  snapshots n := (after H maxSymbols maxSeries calls n).snapshot
  appendOnly i j h := by
    rcases Nat.le_total i j with hle | hge
    · exact (after_appends hle).canonicalRows
    · -- at the same revision the rows are the same
      have hrows := (@after_appends H maxSymbols maxSeries calls j i hge).canonicalRows
      have hsame := hrows.eq_of_length_le (by
        rw [(reachable_after i).valid.length_eq, (reachable_after j).valid.length_eq]
        exact h)
      exact ⟨[], (List.append_nil _).trans hsame.symm⟩

end VersionedFlatInternedLabelSetStore

inductive CatalogOp
  | new (lineageId moment generation : Nat)
  | fromCatalog (index lineageId moment generation : Nat)
  | emptySuccessor (index lineageId moment generation : Nat)
  | reconcileSampleStore (samples : LiveSampleStore) (faults : CatalogFaults)
  | finish

structure CatalogRun where
  builder : Option LiveSeriesCatalogBuilder
  catalogs : List LiveSeriesCatalog

namespace CatalogRun
open LiveSeriesCatalog

section
variable (H : LabelHashes) (lineages : Nat → LabelLineage)

def start : CatalogRun := ⟨none, []⟩

def labelsAt (lineageId moment : Nat) : CatalogLabels :=
  ⟨(lineages lineageId).snapshots moment, lineageId⟩

variable (run : CatalogRun)

def build : Except IoError LiveSeriesCatalogBuilder → CatalogRun
  | .ok builder => { run with builder := some builder }
  | .error _ => run

def step : CatalogOp → CatalogRun
  | .new lineageId moment generation =>
    run.build (new H (labelsAt lineages lineageId moment) generation)
  | .fromCatalog index lineageId moment generation =>
    match run.catalogs[index]? with
    | none => run
    | some previous =>
      run.build (fromCatalog H previous (labelsAt lineages lineageId moment) generation)
  | .emptySuccessor index lineageId moment generation =>
    match run.catalogs[index]? with
    | none => run
    | some previous =>
      run.build (emptySuccessor H previous (labelsAt lineages lineageId moment) generation)
  | .reconcileSampleStore samples faults =>
    match run.builder with
    | none => run
    | some builder => { run with builder := some (builder.reconcileSampleStore H samples faults).2 }
  | .finish =>
    match run.builder with
    | none => run
    | some builder =>
      match builder.finish with
      | .ok catalog => ⟨none, run.catalogs ++ [catalog]⟩
      | .error _ => { run with builder := none }

def steps (ops : List CatalogOp) : CatalogRun := ops.foldl (step H lineages) run

end

variable {H : LabelHashes} {lineages : Nat → LabelLineage} {run : CatalogRun}

structure Sound (lineages : Nat → LabelLineage) (catalog : LiveSeriesCatalog) : Prop where
  labels : ∃ lineageId moment, catalog.labels = labelsAt lineages lineageId moment
  indexed : catalog.Indexed

/-- A property that the constructors establish and the other calls keep. -/
structure Kept (H : LabelHashes) (lineages : Nat → LabelLineage) (P : LiveSeriesCatalog → Prop) :
    Prop where
  new : ∀ lineageId moment generation builder,
    LiveSeriesCatalog.new H (labelsAt lineages lineageId moment) generation = .ok builder → P builder
  fromCatalog : ∀ previous lineageId moment generation builder, P previous →
    fromCatalog H previous (labelsAt lineages lineageId moment) generation = .ok builder → P builder
  emptySuccessor : ∀ previous lineageId moment generation builder,
    emptySuccessor H previous (labelsAt lineages lineageId moment) generation = .ok builder →
      P builder
  reconcile : ∀ builder samples faults, P builder →
    P (builder.reconcileSampleStore H samples faults).2

structure All (P : LiveSeriesCatalog → Prop) (run : CatalogRun) : Prop where
  builder : ∀ builder ∈ run.builder, P builder
  catalogs : ∀ catalog ∈ run.catalogs, P catalog

variable {P : LiveSeriesCatalog → Prop}

theorem All.build (h : run.All P) {built : Except IoError LiveSeriesCatalogBuilder}
    (hbuilt : ∀ builder, built = .ok builder → P builder) : (run.build built).All P := by
  cases built with
  | error error => exact h
  | ok builder =>
    refine ⟨fun other hother => ?_, h.catalogs⟩
    obtain rfl := Option.some.inj hother
    exact hbuilt builder rfl

theorem All.step (h : run.All P) (hkept : Kept H lineages P) (op : CatalogOp) :
    (run.step H lineages op).All P := by
  cases op with
  | new lineageId moment generation => exact h.build fun builder hok => hkept.new _ _ _ builder hok
  | fromCatalog index lineageId moment generation =>
    simp only [CatalogRun.step]
    cases hget : run.catalogs[index]? with
    | none => exact h
    | some previous =>
      exact h.build fun builder hok =>
        hkept.fromCatalog previous _ _ _ builder (h.catalogs _ (mem_of_getElem? hget)) hok
  | emptySuccessor index lineageId moment generation =>
    simp only [CatalogRun.step]
    cases run.catalogs[index]? with
    | none => exact h
    | some previous =>
      exact h.build fun builder hok => hkept.emptySuccessor previous _ _ _ builder hok
  | reconcileSampleStore samples faults =>
    simp only [CatalogRun.step]
    cases hbuilder : run.builder with
    | none => exact h
    | some builder =>
      refine ⟨fun other hother => ?_, h.catalogs⟩
      obtain rfl := Option.some.inj hother
      exact hkept.reconcile builder samples faults (h.builder builder hbuilder)
  | finish =>
    simp only [CatalogRun.step]
    cases hbuilder : run.builder with
    | none => exact h
    | some builder =>
      simp only [builder.finish_ok]
      exact ⟨by simp, forall_mem_append.mpr
        ⟨h.catalogs, forall_mem_singleton.mpr (h.builder builder hbuilder)⟩⟩

theorem Kept.all (hkept : Kept H lineages P) (ops : List CatalogOp) :
    (start.steps H lineages ops).All P := by
  have hsteps : ∀ run : CatalogRun, run.All P → (run.steps H lineages ops).All P := by
    induction ops with
    | nil => exact fun _ h => h
    | cons op ops ih => exact fun run h => ih _ (h.step hkept op)
  exact hsteps start ⟨by simp [start], by simp [start]⟩

theorem Sound.successor {previous builder : LiveSeriesCatalog} {lineageId moment generation : Nat}
    (h : Sound lineages previous)
    (hok : fromCatalog H previous (labelsAt lineages lineageId moment) generation = .ok builder) :
    Sound lineages builder := by
  obtain ⟨hvalid, rfl⟩ := fromCatalog_ok hok
  obtain ⟨hlineage, hrevision⟩ := validateSuccessor_ok hvalid
  obtain ⟨lineageId', moment', hlabels⟩ := h.labels
  rw [hlabels] at hlineage hrevision
  obtain rfl : lineageId = lineageId' := hlineage
  refine ⟨⟨lineageId, moment, rfl⟩, h.indexed.withLabels ?_⟩
  rw [hlabels]
  exact (lineages lineageId).appendOnly moment' moment hrevision

theorem kept_sound : Kept H lineages (Sound lineages) where
  new lineageId moment generation builder hok := by
    obtain ⟨hlabels, hindexed⟩ := new_ok hok
    exact ⟨⟨lineageId, moment, hlabels⟩, hindexed⟩
  fromCatalog previous lineageId moment generation builder h hok := h.successor hok
  emptySuccessor previous lineageId moment generation builder hok := by
    obtain ⟨hlabels, hindexed⟩ := emptySuccessor_ok hok
    exact ⟨⟨lineageId, moment, hlabels⟩, hindexed⟩
  reconcile builder samples faults h := by
    rcases reconcileSampleStore_cases (H := H) h.indexed samples faults with
      ⟨next, hcall, hnext⟩ | ⟨error, hcall, -⟩
    · rw [hcall]
      exact ⟨hnext.labels_eq ▸ h.labels, hnext.indexed⟩
    · rw [hcall]
      exact h

theorem build_catalogs (run : CatalogRun) (built : Except IoError LiveSeriesCatalogBuilder) :
    (run.build built).catalogs = run.catalogs := by
  cases built <;> rfl

theorem catalogs_step (run : CatalogRun) (op : CatalogOp) :
    run.catalogs <+: (run.step H lineages op).catalogs := by
  cases op with
  | new lineageId moment generation =>
    rw [step, build_catalogs]
  | fromCatalog index lineageId moment generation =>
    simp only [step]
    split
    · exact prefix_rfl
    · rw [build_catalogs]
  | emptySuccessor index lineageId moment generation =>
    simp only [step]
    split
    · exact prefix_rfl
    · rw [build_catalogs]
  | reconcileSampleStore samples faults =>
    simp only [step]
    split <;> exact prefix_rfl
  | finish =>
    simp only [step]
    split
    · exact prefix_rfl
    · split
      · exact prefix_append _ _
      · exact prefix_rfl

theorem catalogs_steps (run : CatalogRun) (ops : List CatalogOp) :
    run.catalogs <+: (run.steps H lineages ops).catalogs := by
  induction ops generalizing run with
  | nil => exact prefix_rfl
  | cons op ops ih => exact (run.catalogs_step op).trans (ih _)

/-- The live catalog is the inverted index of the active series. Every builder and finished catalog
indexes its active series, later calls leave finished catalogs as they are, and a reconciliation
ends with the series of the sample store or fails with the builder as it was. -/
theorem liveCatalog_indexed (H : LabelHashes) (lineages : Nat → LabelLineage)
    (ops : List CatalogOp) :
    let run := start.steps H lineages ops
    (∀ builder ∈ run.builder, builder.Indexed) ∧ (∀ catalog ∈ run.catalogs, catalog.Indexed) ∧
      (∀ builder ∈ run.builder, ∀ samples faults,
        (∃ builder', builder.reconcileSampleStore H samples faults = (.ok (), builder') ∧
          Is builder'.active.keys (fun series => ∃ e ∈ samples.root.toList, e.1.series = series) ∧
          builder'.Indexed) ∨
        ∃ error, builder.reconcileSampleStore H samples faults = (.error error, builder) ∧
          ReconcileError H builder.labels samples faults error) ∧
      (∀ later, run.catalogs <+: (run.steps H lineages later).catalogs) := by
  intro run
  have h : run.All (Sound lineages) := kept_sound.all ops
  refine ⟨fun builder hbuilder => (h.builder builder hbuilder).indexed,
    fun catalog hcatalog => (h.catalogs catalog hcatalog).indexed, ?_, run.catalogs_steps⟩
  intro builder hbuilder samples faults
  refine (reconcileSampleStore_cases (h.builder builder hbuilder).indexed samples faults).imp_left ?_
  rintro ⟨builder', hcall, hreached⟩
  exact ⟨builder', hcall, ⟨builder'.active.sorted_keys, hreached.active_iff⟩, hreached.indexed⟩

end CatalogRun

end Chronoxide
