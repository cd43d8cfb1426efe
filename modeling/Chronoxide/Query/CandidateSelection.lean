import Chronoxide.Head.CatalogSelection
import Chronoxide.Head.Codecs
import Chronoxide.Head.SampleStoreRun
import Chronoxide.Query.Agreement

/-! Candidates of a query in the head: the selector index of a window and the live catalog, against
the values that the labels have. -/

namespace Chronoxide
open List hiding dedup
open Codec Fallible SortedSet SelectorPostings

namespace CompiledLabelMatcher

/-- A label that is absent reads as the empty text. -/
def Satisfied (row : LabelRow) (matcher : CompiledLabelMatcher) : Prop :=
  matcher.matchesValue ((labelValue row matcher.name).getD "") false = true

instance (row : LabelRow) (matcher : CompiledLabelMatcher) : Decidable (matcher.Satisfied row) :=
  inferInstanceAs (Decidable (_ = true))


theorem accepts_false_iff (row : LabelRow) (matcher : CompiledLabelMatcher) :
    matcher.Accepts false row ↔ matcher.Satisfied row := by
  unfold Accepts Satisfied
  split
  · rfl
  rename_i hscan
  rw [Bool.not_eq_true] at hscan
  cases matcher with
  | eq name value =>
    have hvalue : value ≠ "" := by
      rintro rfl
      cases hscan
    exact (getD_eq_iff hvalue).symm.trans decide_eq_true_iff.symm
  | notEq name value =>
    have hvalue : value ≠ "" := by
      rintro rfl
      cases hscan
    exact (getD_eq_iff hvalue).not.symm.trans decide_eq_true_iff.symm
  | regex name pattern =>
    change _ ↔ pattern.isMatch ((labelValue row name).getD "") = true
    rw [← Bool.not_eq_false, isMatch_getD_iff hscan]
    simp [regexReads]
  | notRegex name pattern =>
    change _ ↔ (!pattern.isMatch ((labelValue row name).getD "")) = true
    rw [Bool.not_eq_true', isMatch_getD_iff hscan]

end CompiledLabelMatcher

structure LabelHistory where
  maxSymbols : Nat
  maxSeries : Nat
  calls : Nat → InternFaults × List (String × String)

def LabelHistory.lineage (H : LabelHashes) (history : LabelHistory) : LabelLineage :=
  VersionedFlatInternedLabelSetStore.lineage H history.maxSymbols history.maxSeries history.calls

theorem LiveSeriesCatalog.readable_of_run {H : LabelHashes} (histories : Nat → LabelHistory)
    (ops : List CatalogOp) {catalog : LiveSeriesCatalog}
    (hcatalog : catalog ∈
      (CatalogRun.start.steps H (fun id => (histories id).lineage H) ops).catalogs) :
    catalog.Readable := by
  obtain ⟨⟨lineageId, moment, hlabels⟩, hindexed⟩ :=
    (CatalogRun.kept_sound.all ops).catalogs catalog hcatalog
  have hpinned := ((kept_pinned _).all ops).catalogs catalog hcatalog
  obtain ⟨store, hvalid, hsnapshot⟩ : ∃ store, VersionedFlatInternedLabelSetStore.Valid H store ∧
      catalog.labels.toVersionedFlatInternedLabelSetSnapshot = store.snapshot := by
    rw [hlabels]
    exact ⟨_, (VersionedFlatInternedLabelSetStore.reachable_after moment).valid, rfl⟩
  refine ⟨hindexed, hpinned, ?_, ?_, fun series hactive => ?_⟩
  · rw [hsnapshot]
    exact hvalid.symbols.nodup
  · rw [hsnapshot]
    exact hvalid.symbols.bounded
  obtain ⟨canonical, hcanonical, -⟩ := hindexed.rows series hactive
  have hrow : catalog.row series = canonical := by
    rw [row, hcanonical, Option.getD_some]
  rw [hsnapshot] at hcanonical
  have hlt : series.get.toNat < store.rows.length := by
    rw [← hvalid.length_eq]
    exact (List.getElem?_eq_some_iff.mp hcanonical).1
  obtain ⟨labels, -, hlabels⟩ := hvalid.rows _ _ canonical (getElem?_eq_getElem hlt) hcanonical
  have hresolved : catalog.rowLabels series = canonicalRow H labels := by
    rw [rowLabels, hrow, hsnapshot]
    exact (rowOf_iff.mp hlabels).2
  rw [hresolved, hrow, hsnapshot]
  exact ⟨hlabels, canonicalRow_increasing H labels⟩

def Selects (selection : Charged (List SeriesRef)) (budget : QueryBudget)
    (Q : List SeriesRef → Prop) : Prop :=
  (∀ e, (selection.exec budget).1 = .error e → ¬budget.limits.Tripped e) →
    ∃ refs, (selection.exec budget).1 = .ok refs ∧ Q refs

theorem Selects.of_returns {selection : Charged (List SeriesRef)} {budget : QueryBudget}
    {Q Q' : List SeriesRef → Prop} (h : Returns budget.limits selection Q)
    (himp : ∀ refs, Q refs → Q' refs) : Selects selection budget Q' := by
  intro hfits
  obtain ⟨refs, hrefs, hQ⟩ := h.exists_ok hfits
  exact ⟨refs, hrefs, himp refs hQ⟩

section
variable {H : LabelHashes} {regexNew : RegexSyntax} {matchers : List NormalizedMatcher}
  {compiled : List CompiledLabelMatcher} {catalog : LiveSeriesCatalog} {present : List SeriesRef}

theorem LiveSeriesCatalog.Readable.matchingSeries_is (h : catalog.Readable)
    (hsorted : Sorted present) (hpresent : ∀ series ∈ present, series ∈ catalog.active.keys)
    (limits : QueryLimits) (projected : Bool)
    (hcompiled : compileLabelMatchers regexNew matchers = .ok compiled) :
    Returns limits (catalog.matchingSeries present regexNew matchers projected) fun refs =>
      Is refs fun series => series ∈ present ∧
        ∀ matcher ∈ compiled, matcher.Accepts projected (catalog.rowLabels series) := by
  have hvalid := h.validatePresent_ok_iff.mpr ⟨hsorted, hpresent⟩
  unfold LiveSeriesCatalog.matchingSeries
  rw [hvalid]
  refine Returns.seq (Q := fun _ => True) (Returns.ret trivial) fun _ _ => ?_
  refine (matchingSeries_returns (h.faithful hpresent hsorted regexNew limits) hcompiled).mono
    fun refs hrefs => hrefs.congr fun series => LiveSeriesCatalog.Readable.stored_presentRow_iff

end

/-- The candidates of a query in the head are the series whose label values satisfy every matcher: in
a window those of its rows, in a catalog those of the present series. A catalog refuses present
series that are not strictly increasing or not active. -/
theorem candidates_match_labels {K : HeadCodecs} (H : LabelHashes) (window : HeadWindow K)
    (labels : List LabelRow) (histories : Nat → LabelHistory) (ops : List CatalogOp)
    {regexNew : RegexSyntax} {matchers : List NormalizedMatcher}
    {compiled : List CompiledLabelMatcher}
    (hcompiled : compileLabelMatchers regexNew matchers = .ok compiled) (budget : QueryBudget) :
    Selects ((HeadSelectorIndex.build H.xxhash64 labels window).matchingSeries regexNew matchers
        false) budget (fun refs => Is refs fun series => series ∈ window.series.map Prod.fst ∧
          ∃ row, HeadSelectorIndex.rowOf H.xxhash64 labels series = some row ∧
            ∀ matcher ∈ compiled, matcher.Satisfied row) ∧
      ∀ catalog ∈ (CatalogRun.start.steps H (fun id => (histories id).lineage H) ops).catalogs,
        ∀ present : List SeriesRef,
          if Sorted present ∧ ∀ series ∈ present, series ∈ catalog.active.keys then
            Selects (catalog.matchingSeries present regexNew matchers false) budget fun refs =>
              Is refs fun series => series ∈ present ∧
                ∀ matcher ∈ compiled, matcher.Satisfied (catalog.rowLabels series)
          else ∃ e,
            ((catalog.matchingSeries present regexNew matchers false).exec budget).1 = .error e := by
  refine ⟨Selects.of_returns (HeadSelectorIndex.matchingSeries_is _ false hcompiled)
    fun refs hrefs => hrefs.congr fun series => ?_, fun catalog hcatalog present => ?_⟩
  · simp [Stored, CompiledLabelMatcher.accepts_false_iff]
  have hreadable := LiveSeriesCatalog.readable_of_run histories ops hcatalog
  split
  · rename_i hvalid
    refine Selects.of_returns (hreadable.matchingSeries_is hvalid.1 hvalid.2 _ false hcompiled)
      fun refs hrefs => hrefs.congr fun series => ?_
    simp [CompiledLabelMatcher.accepts_false_iff]
  rename_i hinvalid
  have hfails := mt hreadable.validatePresent_ok_iff.mp hinvalid
  unfold LiveSeriesCatalog.matchingSeries
  cases hcheck : catalog.validatePresent present with
  | ok => exact absurd hcheck hfails
  | error e => exact ⟨e, rfl⟩

def jobWindow : HeadWindow (headCodecs fun _ => floatRawCodec) :=
  { HeadWindow.newWithLaneAndCoverage (headCodecs fun _ => floatRawCodec) 0 1 false false with
    series := [(⟨0⟩, .new _ (.int .deltaZigZag) true 1)] }

def jobHistory : LabelHistory := ⟨10, 10, fun n => (noFaults, jobRows.getD n [])⟩

def jobSnapshot : VersionedFlatInternedLabelSetSnapshot where
  symbols := ["__name__", "up", "job", "f", "foo", "down"]
  rows := [[⟨0, 1⟩, ⟨2, 3⟩], [⟨0, 1⟩, ⟨2, 4⟩], [⟨0, 5⟩]]
  canonicalRows := [[⟨0, 1⟩, ⟨2, 3⟩], [⟨0, 1⟩, ⟨2, 4⟩], [⟨0, 5⟩]]

open VersionedFlatInternedLabelSetStore in
theorem snapshots_jobHistory : (jobHistory.lineage zeroHashes).snapshots 3 = jobSnapshot := by
  change ((internLabels zeroHashes noFaults (jobRows.getD 2 [])).exec
    ((internLabels zeroHashes noFaults (jobRows.getD 1 [])).exec
      ((internLabels zeroHashes noFaults jobRow).exec (empty 10 10)).2).2).2.snapshot = _
  rw [@internLabels_sorted zeroHashes noFaults jobRow _ _ [(⟨0, 1⟩, ⟨0, 1⟩), (⟨2, 3⟩, ⟨2, 3⟩)] rfl
      rfl (by decide),
    @internLabels_sorted zeroHashes noFaults (jobRows.getD 1 []) _ _
      [(⟨0, 1⟩, ⟨0, 1⟩), (⟨2, 4⟩, ⟨2, 4⟩)] rfl rfl (by decide),
    @internLabels_sorted zeroHashes noFaults (jobRows.getD 2 []) _ _ [(⟨0, 5⟩, ⟨0, 5⟩)] rfl rfl
      (by decide)]
  rfl

def jobFragment : SharedFragment where
  address := 1
  startMs := 0
  endMs := 100
  lane := .inOrder
  runs := jobRefs.map (⟨·, .float, "raw", 1, 1⟩)
  sorted := by decide
  counted := by decide

def noStoreFaults : StoreFaults := ⟨none, none, fun _ _ => none, fun _ => none⟩

def jobFaults : CatalogFaults := ⟨noStoreFaults, none, none⟩

def jobInserts : List StoreOp :=
  [.insertFragment ⟨⟨⟨"jobs", 0⟩, 0, 100, .inOrder⟩, ⟨⟨0, 0⟩, ⟨0, 2⟩⟩, rfl⟩ jobFragment noStoreFaults]

def jobStore : StoreRun := StoreRun.start.steps jobInserts

def jobBuilder : LiveSeriesCatalogBuilder :=
  ⟨⟨jobSnapshot, 0⟩, 1, .default, .default, .default, .default⟩

theorem jobBuilder_new : LiveSeriesCatalog.new zeroHashes ⟨jobSnapshot, 0⟩ 1 = .ok jobBuilder := by
  rfl

theorem activeSeriesRefs_jobStore :
    jobStore.builder.activeSeriesRefs jobFaults.samples = .ok jobRefs := by
  have hentries : LiveSampleStore.listSeries jobStore.builder.root.toList = jobRefs := by
    decide +kernel
  have hsorted : jobRefs.mergeSort (· ≤ ·) = jobRefs := mergeSort_of_pairwise (by decide)
  unfold LiveSampleStore.activeSeriesRefs
  rw [show jobFaults.samples.map = none from rfl, jobStore.builder.root.inOrder_none]
  change Except.ok (dedup ((LiveSampleStore.listSeries jobStore.builder.root.toList).mergeSort _)) = _
  rw [hentries, hsorted]
  rfl

theorem jobBuilder_reconciles : ∃ catalog, jobBuilder.reconcileSampleStore zeroHashes
    jobStore.builder jobFaults = (.ok (), catalog) := by
  have hrevision : jobStore.builder.requiredCatalogRevision ≤ jobBuilder.labels.revision := by
    decide +kernel
  have hwalk : (do
      let candidate ← jobBuilder.activate zeroHashes ⟨0⟩
      let candidate ← candidate.activate zeroHashes ⟨1⟩
      candidate.activate zeroHashes ⟨2⟩).isOk := by
    decide +kernel
  have hreconciled : (jobBuilder.reconciled zeroHashes jobStore.builder
      jobFaults).isOk := by
    unfold LiveSeriesCatalog.reconciled
    rw [require_pos hrevision, activeSeriesRefs_jobStore]
    change (LiveSeriesCatalog.reconcileSeries zeroHashes [] jobRefs jobBuilder).isOk
    simp only [jobRefs, LiveSeriesCatalog.reconcileSeries]
    exact hwalk
  obtain ⟨catalog, hcatalog⟩ := exists_of_isOk hreconciled
  refine ⟨catalog, ?_⟩
  rw [LiveSeriesCatalog.reconcileSampleStore, hcatalog]

def jobLineages : Nat → LabelLineage := fun _ => jobHistory.lineage zeroHashes

theorem jobRun_builder : CatalogRun.start.steps zeroHashes jobLineages [.new 0 3 1] =
    ⟨some jobBuilder, []⟩ := by
  change CatalogRun.start.build (LiveSeriesCatalog.new zeroHashes
    ⟨(jobHistory.lineage zeroHashes).snapshots 3, 0⟩ 1) = _
  rw [snapshots_jobHistory, jobBuilder_new]
  rfl

def jobOps : List CatalogOp :=
  [.new 0 3 1, .reconcileSampleStore jobStore.builder jobFaults, .finish]

theorem jobCatalog_mem {catalog : LiveSeriesCatalog}
    (h : jobBuilder.reconcileSampleStore zeroHashes jobStore.builder jobFaults = (.ok (), catalog)) :
    catalog ∈ (CatalogRun.start.steps zeroHashes jobLineages jobOps).catalogs := by
  change _ ∈ ([.reconcileSampleStore jobStore.builder jobFaults, .finish].foldl
    (CatalogRun.step zeroHashes jobLineages)
    (CatalogRun.start.steps zeroHashes jobLineages [.new 0 3 1])).catalogs
  rw [jobRun_builder, foldl_cons, foldl_cons, foldl_nil]
  simp only [CatalogRun.step, h, LiveSeriesCatalog.finish_ok]
  exact mem_singleton_self _

def jobMatchers : List NormalizedMatcher := [.notRegex "job" "fo+", .eq "env" ""]

def jobCompiled : List CompiledLabelMatcher :=
  [.notRegex "job" ⟨"^(?:fo+)$", fun value => value = "fo" || value = "foo"⟩, .eq "env" ""]

theorem jobCatalog_reconciled {catalog : LiveSeriesCatalog}
    (h : jobBuilder.reconcileSampleStore zeroHashes jobStore.builder jobFaults = (.ok (), catalog)) :
    catalog.rowLabels = jobBuilder.rowLabels ∧
      ∀ series, series ∈ catalog.active.keys ↔ series ∈ jobRefs := by
  have hindexed : jobBuilder.Indexed := LiveSeriesCatalog.indexed_empty _ _
  have hreached := LiveSeriesCatalog.reached_of_reconcileSampleStore hindexed h
  refine ⟨?_, fun series => (hreached.active_iff series).trans ?_⟩
  · unfold LiveSeriesCatalog.rowLabels LiveSeriesCatalog.row
    rw [hreached.labels_eq]
  · have hkeys : jobStore.builder.root.toList.map (·.1.series) = jobRefs := by decide +kernel
    rw [← hkeys, mem_map]

def jobsWindow : HeadWindow (headCodecs fun _ => floatRawCodec) :=
  { jobWindow with series := jobRefs.map fun series => (series, .new _ (.int .deltaZigZag) true 1) }

theorem jobRefs_selected (series : SeriesRef) :
    (series ∈ jobRefs ∧ ∀ matcher ∈ jobCompiled, matcher.Satisfied (jobBuilder.rowLabels series)) ↔
      series = ⟨0⟩ ∨ series = ⟨2⟩ := by
  have hall : ∀ series ∈ jobRefs, (∀ matcher ∈ jobCompiled,
      matcher.Satisfied (jobBuilder.rowLabels series)) ↔ series = ⟨0⟩ ∨ series = ⟨2⟩ := by
    decide +kernel
  constructor
  · rintro ⟨hseries, hmatch⟩
    exact (hall series hseries).mp hmatch
  · intro hseries
    have hmem : series ∈ jobRefs := by rcases hseries with rfl | rfl <;> decide
    exact ⟨hmem, (hall series hmem).mpr hseries⟩

/-- Of the jobs `f`, `foo` and none, the candidates for `job!~"fo+"` and an absent `env` are the
first and the last, of a catalog those of them that are present. -/
theorem candidates_match_labels_jobs :
    (∃ refs, (((HeadSelectorIndex.build zeroHashes.xxhash64 jobRows jobsWindow).matchingSeries
      repeatedLetter jobMatchers false).exec QueryBudget.unlimited).1 = .ok refs ∧
        ∀ series, series ∈ refs ↔ series = ⟨0⟩ ∨ series = ⟨2⟩) ∧
    ∃ catalog ∈ (CatalogRun.start.steps zeroHashes jobLineages jobOps).catalogs,
      ∃ refs, ((catalog.matchingSeries [⟨1⟩, ⟨2⟩] repeatedLetter jobMatchers false).exec
        QueryBudget.unlimited).1 = .ok refs ∧ ∀ series, series ∈ refs ↔ series = ⟨2⟩ := by
  have hcompiled : compileLabelMatchers repeatedLetter jobMatchers = .ok jobCompiled := rfl
  obtain ⟨hwindow, hcatalogs⟩ := candidates_match_labels zeroHashes jobsWindow jobRows
    (fun _ => jobHistory) jobOps hcompiled QueryBudget.unlimited
  constructor
  · obtain ⟨refs, hrefs, his⟩ := hwindow fun e _ => QueryLimits.not_tripped_unlimited e
    refine ⟨refs, hrefs, fun series => (his.mem_iff series).trans ?_⟩
    have hrow : ∀ series ∈ jobRefs, HeadSelectorIndex.rowOf zeroHashes.xxhash64 jobRows series =
        some (jobBuilder.rowLabels series) := by
      decide +kernel
    rw [← jobRefs_selected]
    refine and_congr_right fun hseries => ?_
    rw [hrow series hseries]
    simp
  · obtain ⟨catalog, hreconciled⟩ := jobBuilder_reconciles
    obtain ⟨hlabels, hactive⟩ := jobCatalog_reconciled hreconciled
    have hmem := jobCatalog_mem hreconciled
    have hselects := hcatalogs catalog hmem [⟨1⟩, ⟨2⟩]
    rw [if_pos ⟨by decide, by simp [hactive, jobRefs]⟩] at hselects
    obtain ⟨refs, hrefs, his⟩ := hselects fun e _ => QueryLimits.not_tripped_unlimited e
    refine ⟨catalog, hmem, refs, hrefs, fun series => (his.mem_iff series).trans ?_⟩
    rw [hlabels]
    constructor
    · rintro ⟨hseries, hall⟩
      rcases (jobRefs_selected series).mp ⟨mem_cons_of_mem _ hseries, hall⟩ with rfl | rfl
      · exact absurd hseries (by decide)
      · rfl
    · rintro rfl
      exact ⟨by decide, ((jobRefs_selected ⟨2⟩).mpr (.inr rfl)).2⟩

/-- `present_series` of a frozen view: `chosen` are the runs of a wanted kind that have samples in
the range, after all of them were read. -/
def presentSeries (chosen : FrozenRunRef → Bool) (runs : List FrozenRunRef) : List SeriesRef :=
  dedup (((runs.filter chosen).map (·.key.series)).mergeSort (· ≤ ·))

/-- A live query selects the series with a chosen run among the visible fragments whose labels
satisfy every matcher: however the store and the catalog came about, a catalog reconciled with the
store refuses no series that the store has. -/
theorem liveCandidates_exact (H : LabelHashes) (histories : Nat → LabelHistory)
    (ops : List CatalogOp) (storeOps : List StoreOp) (faults : CatalogFaults) :
    let store := StoreRun.start.steps storeOps
    let run := CatalogRun.start.steps H (fun id => (histories id).lineage H) ops
    match run.builder.map (LiveSeriesCatalog.reconcileSampleStore H · store.builder faults) with
    | some (.ok (), catalog) => ∀ startMs endMs readFaults runs chosen regexNew matchers compiled
        budget, store.builder.orderedRuns startMs endMs readFaults = .ok runs →
        compileLabelMatchers regexNew matchers = .ok compiled →
        Selects (catalog.matchingSeries (presentSeries chosen runs) regexNew matchers false) budget
          fun refs => Is refs fun series =>
            (∃ ref ∈ LiveSampleStore.visibleRuns store.contents startMs endMs,
              chosen ref = true ∧ ref.key.series = series) ∧
            ∀ matcher ∈ compiled, matcher.Satisfied (catalog.rowLabels series)
    | _ => True := by
  intro store
  dsimp only
  split
  case h_2 => trivial
  case h_1 catalog hmatch =>
  intro startMs endMs readFaults runs chosen regexNew matchers compiled budget hruns hcompiled
  obtain ⟨builder, hrun, hreconciled⟩ := Option.map_eq_some_iff.mp hmatch
  have hstore : store.builder.Represents store.contents :=
    (StoreRun.accounted_start.steps storeOps).builder
  have hreadable : catalog.Readable := by
    refine LiveSeriesCatalog.readable_of_run (H := H) histories
      (ops ++ [.reconcileSampleStore store.builder faults, .finish]) ?_
    rw [CatalogRun.steps, foldl_append, foldl_cons, foldl_cons, foldl_nil,
      ← CatalogRun.steps]
    simp only [CatalogRun.step, hrun, hreconciled, LiveSeriesCatalog.finish_ok]
    exact mem_append_right _ (mem_singleton_self _)
  have hactive : ∀ series, series ∈ catalog.active.keys ↔
      ∃ e ∈ store.builder.root.toList, e.1.series = series := by
    have hindexed := ((CatalogRun.kept_sound.all ops).builder builder hrun).indexed
    exact (LiveSeriesCatalog.reached_of_reconcileSampleStore hindexed hreconciled).active_iff
  obtain ⟨_, hyields, hperm, -⟩ := hstore.exact.runs startMs endMs readFaults
  obtain rfl : runs = _ := by
    rcases hyields with heq | ⟨_, -, heq⟩
    · exact Except.ok.inj (hruns.symm.trans heq)
    · cases hruns.symm.trans heq
  have hpresent : ∀ series, series ∈ presentSeries chosen runs ↔
      ∃ ref ∈ LiveSampleStore.visibleRuns store.contents startMs endMs,
        chosen ref = true ∧ ref.key.series = series := by
    simp [presentSeries, mem_dedup_mergeSort, hperm.mem_iff, and_assoc]
  refine Selects.of_returns (hreadable.matchingSeries_is (sorted_dedup_mergeSort _) ?_ _ false
    hcompiled) fun refs hrefs => hrefs.congr fun series => ?_
  · intro series hseries
    obtain ⟨ref, href, -, rfl⟩ := (hpresent series).mp hseries
    have hrange : ¬endMs < startMs := fun hlt => by
      rw [LiveSampleStore.visibleRuns, if_pos hlt] at href
      cases href
    obtain ⟨e, he, run, hrun, -, rfl⟩ := (LiveSampleStore.mem_visibleRuns hrange).mp href
    obtain ⟨levels, hmem⟩ := (hstore.mem_keys (e.keyOf run)).mpr
      ⟨e, he, StoredFragment.hasRun_iff.mpr ⟨run, hrun, rfl⟩⟩
    exact (hactive _).mpr ⟨_, hmem, rfl⟩
  · rw [← hpresent]
    simp [presentSeries, CompiledLabelMatcher.accepts_false_iff]

/-- The store holds runs of three series and the catalog is reconciled with it; of the series, a live
query with the same matchers selects the first and the last. -/
theorem liveCandidates_exact_jobs : ∃ catalog runs refs,
    jobBuilder.reconcileSampleStore zeroHashes jobStore.builder jobFaults = (.ok (), catalog) ∧
      jobStore.builder.orderedRuns 0 99 noStoreFaults = .ok runs ∧
      ((catalog.matchingSeries (presentSeries (fun _ => true) runs) repeatedLetter jobMatchers
        false).exec QueryBudget.unlimited).1 = .ok refs ∧
      ∀ series, series ∈ refs ↔ series = ⟨0⟩ ∨ series = ⟨2⟩ := by
  have hexact := liveCandidates_exact zeroHashes (fun _ => jobHistory) [.new 0 3 1] jobInserts jobFaults
  obtain ⟨catalog, hreconciled⟩ := jobBuilder_reconciles
  obtain ⟨runs, hruns⟩ : ∃ runs, jobStore.builder.orderedRuns 0 99 noStoreFaults = .ok runs :=
    exists_of_isOk (by decide +kernel)
  change match (CatalogRun.start.steps zeroHashes jobLineages [.new 0 3 1]).builder.map
    (LiveSeriesCatalog.reconcileSampleStore zeroHashes · jobStore.builder jobFaults) with
    | some (.ok (), catalog) => _
    | _ => True at hexact
  rw [jobRun_builder, Option.map_some, hreconciled] at hexact
  have hcompiled : compileLabelMatchers repeatedLetter jobMatchers = .ok jobCompiled := rfl
  obtain ⟨refs, hrefs, his⟩ := hexact 0 99 noStoreFaults runs (fun _ => true) repeatedLetter
    jobMatchers jobCompiled QueryBudget.unlimited hruns hcompiled
    fun e _ => QueryLimits.not_tripped_unlimited e
  refine ⟨catalog, runs, refs, hreconciled, hruns, hrefs, fun series =>
    (his.mem_iff series).trans ?_⟩
  have hvisible : (LiveSampleStore.visibleRuns jobStore.contents 0 99).map (·.key.series) =
      jobRefs := by
    decide +kernel
  rw [(jobCatalog_reconciled hreconciled).1, ← jobRefs_selected, ← hvisible, mem_map]
  simp only [true_and]
  rfl

end Chronoxide
