import Chronoxide.Collections.OrderedMap
import Chronoxide.Head.Catalog

/-! The canonical labels of a series as the head (`head/buffer.rs`, `promql/normalize.rs`) and the
segment writer (`segment/writer/labels.rs`) compute them, and that they agree with the canonical row
of the live store. -/

namespace Chronoxide
open KeepLast List

variable (xxhash64 : List UInt8 → UInt64)

def canonicalizeLabelset (metricName : String) (labels : List (String × String))
    : List (String × String) :=
  let canonical : OrderedMap String String := {}
  let canonical := canonical.insert metricNameLabel (normalizeMetricName xxhash64 metricName)
  let canonical := labels.foldl
    (fun canonical label => canonical.insert (normalizeLabelName xxhash64 label.1) label.2) canonical
  canonical.toList

def visitHeadLabel (seen : String × List (String × String)) (label : String × String) :
    String × List (String × String) :=
  if label.1 = metricNameLabel then (label.2, seen.2) else (seen.1, seen.2 ++ [label])

def canonicalHeadLabelset (labels : List (List (String × String))) (series : SeriesRef)
    : Option (UInt64 × List (String × String)) :=
  match labels[series.get.toNat]? with
  | none => none
  | some row =>
    let (metricName, attributes) := row.foldl visitHeadLabel ("", [])
    let canonical := canonicalizeLabelset xxhash64 metricName attributes
    some (seriesId xxhash64 canonical, canonical)

structure SegmentSeriesMetadata where
  seriesId : UInt64
  labels : List (String × String)
  deriving DecidableEq, Repr

structure SegmentSeriesMetadataBuilder where
  labels : OrderedMap String String
  metricNameSeen : Bool

namespace SegmentSeriesMetadataBuilder

def new : SegmentSeriesMetadataBuilder :=
  let labels : OrderedMap String String := {}
  ⟨labels.insert metricNameLabel "", false⟩

def pushLabel (builder : SegmentSeriesMetadataBuilder) (label : String × String)
    : SegmentSeriesMetadataBuilder :=
  if label.1 = metricNameLabel then
    if builder.metricNameSeen then builder
    else ⟨builder.labels.insert metricNameLabel (normalizeMetricName xxhash64 label.2), true⟩
  else { builder with
    labels := builder.labels.insert (normalizeLabelName xxhash64 label.1) label.2 }

def finish (builder : SegmentSeriesMetadataBuilder) : SegmentSeriesMetadata :=
  ⟨Chronoxide.seriesId xxhash64 builder.labels.toList, builder.labels.toList⟩

end SegmentSeriesMetadataBuilder

structure VisitedLabels where
  labels : List (String × String)
  metricName : String
  metricNameSeen : Bool

def visitSegmentLabel (visited : VisitedLabels) (label : String × String) : VisitedLabels :=
  if label.1 = metricNameLabel then
    if visited.metricNameSeen then visited
    else { visited with
      metricName := normalizeMetricName xxhash64 label.2
      metricNameSeen := true }
  else { visited with
    labels := visited.labels ++ [(normalizeLabelName xxhash64 label.1, label.2)] }

def canonicalLabelVisitorMetadata (row : List (String × String)) : List (String × String) :=
  let visited := row.foldl (visitSegmentLabel xxhash64) ⟨[], "", false⟩
  let labels := visited.labels ++ [(metricNameLabel, visited.metricName)]
  KeepLast.compact Prod.fst (labels.mergeSort fun left right => left.1 ≤ right.1)

/-- Names that were normalized already, by the id of the original; a full cache takes no more. -/
structure NormalizedNameCache where
  labelNames : List (SymbolId × String)
  metricNames : List (SymbolId × String)
  maxEntries : Nat

def NormalizedNameCache.withMaxEntries (maxEntries : Nat) : NormalizedNameCache :=
  ⟨[], [], maxEntries⟩

def normalizedName (cache : List (SymbolId × String)) (maxEntries : Nat) (sourceId : SymbolId)
    (sourceName : String) (normalize : String → String) : String × List (SymbolId × String) :=
  match cache.lookup sourceId with
  | some name => (name, cache)
  | none =>
    let name := normalize sourceName
    (name, if cache.length < maxEntries then cache ++ [(sourceId, name)] else cache)

inductive SourceLabelValue
  | symbol (id : SymbolId)
  | owned (value : String)
  deriving DecidableEq, Repr

def resolveSourceLabelValue (symbols : List String) : SourceLabelValue → String
  | .symbol id => resolve symbols id
  | .owned value => value

structure FlatScratch where
  cache : NormalizedNameCache
  labels : List (String × SourceLabelValue)
  metricNameSeen : Bool
  labelsSorted : Bool

def FlatScratch.push (scratch : FlatScratch) (label : String × SourceLabelValue) : FlatScratch :=
  { scratch with
    labels := scratch.labels ++ [label]
    labelsSorted := scratch.labelsSorted && scratch.labels.getLast?.all (·.1 ≤ label.1) }

section
variable (xxhash64 : List UInt8 → UInt64) (symbols : List String) (scratch : FlatScratch)

def visitFlatLabel (pair : InternedKeyValue) : FlatScratch :=
  let name := resolve symbols pair.key
  let cache := scratch.cache
  if name = metricNameLabel then
    if scratch.metricNameSeen then scratch
    else
      let (metricName, metricNames) := normalizedName cache.metricNames cache.maxEntries pair.value
        (resolve symbols pair.value) (normalizeMetricName xxhash64)
      { scratch with
        cache := { cache with metricNames }
        metricNameSeen := true }.push (metricNameLabel, .owned metricName)
  else
    let (key, labelNames) := normalizedName cache.labelNames cache.maxEntries pair.key name
      (normalizeLabelName xxhash64)
    { scratch with cache := { cache with labelNames } }.push (key, .symbol pair.value)

def FlatScratch.withMetricName : FlatScratch :=
  if scratch.metricNameSeen then scratch else scratch.push (metricNameLabel, .owned "")

def FlatScratch.sortedLabels : List (String × SourceLabelValue) :=
  if scratch.labelsSorted then scratch.labels
  else scratch.labels.mergeSort fun left right => left.1 ≤ right.1

def prepareFlatInternedLabelMetadata (cache : NormalizedNameCache) (row : List InternedKeyValue) :
    NormalizedNameCache × List (String × SourceLabelValue) :=
  let scratch := (row.foldl (visitFlatLabel xxhash64 symbols) ⟨cache, [], false, true⟩).withMetricName
  (scratch.cache, scratch.sortedLabels)

variable (labels : List (String × SourceLabelValue))

def appendFlatInternedSortedLabels : List (String × String) × List UInt8 :=
  let written := (KeepLast.lastOfRuns Prod.fst labels).map fun label =>
    (label.1, resolveSourceLabelValue symbols label.2)
  (written, seriesIdBytes written)

def canonicalFlatLabelCount : Nat :=
  KeepLast.runCount Prod.fst labels

inductive NormalizedNameCache.Reachable : NormalizedNameCache → Prop
  | withMaxEntries (maxEntries : Nat) : Reachable (.withMaxEntries maxEntries)
  | prepare {cache : NormalizedNameCache} (row : List InternedKeyValue) (h : Reachable cache) :
      Reachable (prepareFlatInternedLabelMetadata xxhash64 symbols cache row).1

end

section
variable {H : LabelHashes} {row : List (String × String)} {labels : List (String × String)}

theorem eq_canonicalRow (hincreasing : KeepLast.Increasing Prod.fst labels)
    (hlast : ∀ name, last? Prod.fst name labels =
      last? Prod.fst name (row.map (canonicalLabel H))) :
    labels = canonicalRow H row :=
  hincreasing.ext (canonicalRow_increasing H row) fun name =>
    (hlast name).trans (last?_canonicalRow H row name).symm

theorem canonicalLabel_of_ne {label : String × String} (h : label.1 ≠ metricNameLabel) :
    canonicalLabel H label = (normalizeLabelName H.xxhash64 label.1, label.2) := if_neg h

theorem canonicalLabel_metric (value : String) : canonicalLabel H (metricNameLabel, value) =
    (metricNameLabel, normalizeMetricName H.xxhash64 value) := if_pos rfl

theorem exists_split_of_metricNameCount (h : metricNameCount row = 1) :
    ∃ before value after, row = before ++ (metricNameLabel, value) :: after ∧
      ∀ label ∈ before ++ after, label.1 ≠ metricNameLabel := by
  have hpos : 0 < metricNameCount row := h ▸ Nat.one_pos
  obtain ⟨⟨name, value⟩, hmem, hname⟩ := countP_pos_iff.mp hpos
  obtain ⟨before, after, rfl⟩ := append_of_mem hmem
  have hname : name = metricNameLabel := by simpa using hname
  subst hname
  refine ⟨before, value, after, rfl, fun label hlabel heq => ?_⟩
  have hzero : metricNameCount (before ++ after) = 0 := by
    simp only [metricNameCount, countP_append, countP_cons_of_pos, decide_true] at h ⊢
    omega
  exact countP_eq_zero.mp hzero label hlabel (by simpa using heq)

theorem canonicalLabel_ne_metricNameLabel (h : ∀ label ∈ labels, label.1 ≠ metricNameLabel) :
    ∀ label ∈ labels.map (canonicalLabel H), label.1 ≠ metricNameLabel := by
  intro label hlabel
  obtain ⟨stored, hstored, rfl⟩ := mem_map.mp hlabel
  rw [ne_eq, canonicalLabel_fst_eq_metricNameLabel_iff]
  exact h stored hstored

theorem last?_split {before after : List (String × String)} (value : String)
    (h : ∀ label ∈ before ++ after, label.1 ≠ metricNameLabel) (name : String) :
    last? Prod.fst name
        ((before ++ (metricNameLabel, value) :: after).map (canonicalLabel H)) =
      last? Prod.fst name ((metricNameLabel, normalizeMetricName H.xxhash64 value) ::
        (before ++ after).map (canonicalLabel H)) := by
  have hne := canonicalLabel_ne_metricNameLabel (H := H) h
  rw [map_append] at hne
  rw [map_append, map_cons, canonicalLabel_metric, map_append]
  exact last?_middle hne name

theorem foldl_visitHeadLabel
    (h : ∀ label ∈ labels, label.1 ≠ metricNameLabel) (seen : String × List (String × String)) :
    labels.foldl visitHeadLabel seen = (seen.1, seen.2 ++ labels) := by
  induction labels generalizing seen with
  | nil => rw [append_nil, foldl_nil]
  | cons label labels ih =>
    obtain ⟨hlabel, hlabels⟩ := forall_mem_cons.mp h
    rw [foldl_cons, ih hlabels, visitHeadLabel, if_neg hlabel, append_assoc]
    rfl

theorem foldl_insert_eq_insertAll
    (h : ∀ label ∈ labels, label.1 ≠ metricNameLabel) (m : OrderedMap String String) :
    labels.foldl (fun canonical label =>
      canonical.insert (normalizeLabelName H.xxhash64 label.1) label.2) m =
      m.insertAll (labels.map (canonicalLabel H)) := by
  induction labels generalizing m with
  | nil => rfl
  | cons label labels ih =>
    obtain ⟨hlabel, hlabels⟩ := forall_mem_cons.mp h
    rw [foldl_cons, ih hlabels, map_cons, canonicalLabel_of_ne hlabel]
    rfl

theorem canonicalHeadLabelset_eq (h : metricNameCount row = 1)
    {labels : List (List (String × String))} {series : SeriesRef}
    (hrow : labels[series.get.toNat]? = some row) :
    canonicalHeadLabelset H.xxhash64 labels series =
      some (seriesId H.xxhash64 (canonicalRow H row), canonicalRow H row) := by
  obtain ⟨before, value, after, rfl, hne⟩ := exists_split_of_metricNameCount h
  obtain ⟨hbefore, hafter⟩ := forall_mem_append.mp hne
  have hvisited : (before ++ (metricNameLabel, value) :: after).foldl visitHeadLabel ("", []) =
      (value, before ++ after) := by
    rw [foldl_append, foldl_visitHeadLabel hbefore, foldl_cons, foldl_visitHeadLabel hafter]
    rfl
  have hcanonical : canonicalizeLabelset H.xxhash64 value (before ++ after) =
      canonicalRow H (before ++ (metricNameLabel, value) :: after) := by
    have hinserted : canonicalizeLabelset H.xxhash64 value (before ++ after) =
        (OrderedMap.insertAll {} ((metricNameLabel, normalizeMetricName H.xxhash64 value) ::
          (before ++ after).map (canonicalLabel H))).toList :=
      congrArg Std.TreeMap.toList (foldl_insert_eq_insertAll hne _)
    rw [hinserted]
    refine eq_canonicalRow (OrderedMap.toList_increasing _) fun name => ?_
    rw [OrderedMap.last?_toList_ofList, last?_split value hne]
  rw [canonicalHeadLabelset, hrow]
  simp [hvisited, hcanonical]

theorem foldl_pushLabel (builder : SegmentSeriesMetadataBuilder) (h : metricNameCount row ≤ 1)
    (hseen : builder.metricNameSeen → metricNameCount row = 0) :
    (row.foldl (SegmentSeriesMetadataBuilder.pushLabel H.xxhash64) builder).labels =
      builder.labels.insertAll (row.map (canonicalLabel H)) := by
  induction row generalizing builder with
  | nil => rfl
  | cons label row ih =>
    rw [metricNameCount_cons] at h hseen
    rw [foldl_cons, SegmentSeriesMetadataBuilder.pushLabel, map_cons]
    by_cases hmetric : label.1 = metricNameLabel
    · have hone : metricNameCount [label] = 1 := by simp [metricNameCount, hmetric]
      have hunseen : ¬builder.metricNameSeen := by
        intro hs
        have := hseen hs
        omega
      have hlabel : label = (metricNameLabel, label.2) := Prod.ext hmetric rfl
      rw [if_pos hmetric, if_neg hunseen, ih _ (by omega) fun _ => by omega, hlabel,
        canonicalLabel_metric]
      rfl
    · rw [if_neg hmetric, ih _ (by omega) fun hs => by have := hseen hs; omega,
        canonicalLabel_of_ne hmetric]
      rfl

theorem segmentSeriesMetadataBuilder_eq (h : metricNameCount row = 1) :
    (row.foldl (SegmentSeriesMetadataBuilder.pushLabel H.xxhash64) .new).finish H.xxhash64 =
      ⟨seriesId H.xxhash64 (canonicalRow H row), canonicalRow H row⟩ := by
  have hlabels : (row.foldl (SegmentSeriesMetadataBuilder.pushLabel H.xxhash64) .new).labels.toList =
      canonicalRow H row := by
    rw [foldl_pushLabel _ h.le fun hseen => by cases hseen]
    refine eq_canonicalRow (OrderedMap.toList_increasing _) fun name => ?_
    refine (OrderedMap.last?_toList_ofList ((metricNameLabel, "") ::
      row.map (canonicalLabel H)) name).trans ?_
    -- the empty name that a builder starts with is overwritten
    obtain ⟨before, value, after, rfl, -⟩ := exists_split_of_metricNameCount h
    have hmem : (metricNameLabel, value) ∈ before ++ (metricNameLabel, value) :: after := by simp
    exact last?_cons_of_mem (mem_map_of_mem hmem)
      ((canonicalLabel_fst_eq_metricNameLabel_iff H _).mpr rfl) name
  rw [SegmentSeriesMetadataBuilder.finish, hlabels]

theorem foldl_visitSegmentLabel
    (h : ∀ label ∈ labels, label.1 ≠ metricNameLabel) (visited : VisitedLabels) :
    labels.foldl (visitSegmentLabel H.xxhash64) visited =
      { visited with labels := visited.labels ++ labels.map (canonicalLabel H) } := by
  induction labels generalizing visited with
  | nil => rw [map_nil, append_nil, foldl_nil]
  | cons label labels ih =>
    obtain ⟨hlabel, hlabels⟩ := forall_mem_cons.mp h
    rw [foldl_cons, ih hlabels, visitSegmentLabel, if_neg hlabel, append_assoc,
      map_cons, canonicalLabel_of_ne hlabel]
    rfl

theorem canonicalLabelVisitorMetadata_eq (h : metricNameCount row = 1) :
    canonicalLabelVisitorMetadata H.xxhash64 row = canonicalRow H row := by
  obtain ⟨before, value, after, rfl, hne⟩ := exists_split_of_metricNameCount h
  obtain ⟨hbefore, hafter⟩ := forall_mem_append.mp hne
  have hvisited : (before ++ (metricNameLabel, value) :: after).foldl
      (visitSegmentLabel H.xxhash64) ⟨[], "", false⟩ = ⟨(before ++ after).map (canonicalLabel H),
        normalizeMetricName H.xxhash64 value, true⟩ := by
    rw [foldl_append, foldl_visitSegmentLabel hbefore, foldl_cons,
      foldl_visitSegmentLabel hafter, map_append]
    rfl
  unfold canonicalLabelVisitorMetadata
  rw [hvisited, compact_eq_keepLast]
  refine eq_canonicalRow (keepLast_mergeSort_key _).1 fun name => ?_
  rw [(keepLast_mergeSort_key _).2, last?_split value hne, last?_middle, append_nil]
  rw [append_nil]
  exact canonicalLabel_ne_metricNameLabel hne

variable {symbols : List String}

structure NormalizedNameCache.Valid (xxhash64 : List UInt8 → UInt64) (symbols : List String)
    (cache : NormalizedNameCache) : Prop where
  labelNames : ∀ id name, cache.labelNames.lookup id = some name →
    name = normalizeLabelName xxhash64 (resolve symbols id)
  metricNames : ∀ id name, cache.metricNames.lookup id = some name →
    name = normalizeMetricName xxhash64 (resolve symbols id)

theorem normalizedName_spec {cache : List (SymbolId × String)} {normalize : String → String}
    (h : ∀ id name, cache.lookup id = some name → name = normalize (resolve symbols id))
    (maxEntries : Nat) (sourceId : SymbolId) :
    let out := normalizedName cache maxEntries sourceId (resolve symbols sourceId) normalize
    out.1 = normalize (resolve symbols sourceId) ∧
      ∀ id name, out.2.lookup id = some name → name = normalize (resolve symbols id) := by
  unfold normalizedName
  cases hlookup : cache.lookup sourceId with
  | some name => exact ⟨h sourceId name hlookup, h⟩
  | none =>
    refine ⟨rfl, fun id name hname => ?_⟩
    simp only at hname
    split at hname
    · rw [KeyedList.lookup_append_singleton hlookup] at hname
      split at hname
      · rename_i hid
        rw [hid]
        exact (Option.some.inj hname).symm
      · exact h id name hname
    · exact h id name hname

/-- The flag tells whether the labels are in order. -/
structure FlatScratch.Valid (xxhash64 : List UInt8 → UInt64) (symbols : List String)
    (scratch : FlatScratch) : Prop where
  cache : scratch.cache.Valid xxhash64 symbols
  sorted : scratch.labelsSorted → scratch.labels.Pairwise fun a b => a.1 ≤ b.1

theorem FlatScratch.Valid.push {xxhash64 : List UInt8 → UInt64} {scratch : FlatScratch}
    (h : scratch.Valid xxhash64 symbols) (label : String × SourceLabelValue) :
    (scratch.push label).Valid xxhash64 symbols := by
  refine ⟨h.cache, fun hsorted => ?_⟩
  obtain ⟨hbefore, hlast⟩ := Bool.and_eq_true_iff.mp hsorted
  refine pairwise_append.mpr ⟨h.sorted hbefore, pairwise_singleton .., ?_⟩
  intro a ha b hb
  rw [mem_singleton.mp hb]
  cases hlabels : scratch.labels.getLast? with
  | none =>
    rw [getLast?_eq_none_iff.mp hlabels] at ha
    cases ha
  | some last =>
    rw [hlabels, Option.all_some, decide_eq_true_eq] at hlast
    obtain ⟨front, hfront⟩ := getLast?_eq_some_iff.mp hlabels
    have hpairwise := h.sorted hbefore
    rw [hfront] at ha hpairwise
    rcases mem_append.mp ha with ha | ha
    · exact ((pairwise_append.mp hpairwise).2.2 a ha last (by simp)).trans hlast
    · rw [mem_singleton.mp ha]
      exact hlast

def resolveSourceLabel (symbols : List String) (label : String × SourceLabelValue) :
    String × String :=
  (label.1, resolveSourceLabelValue symbols label.2)

theorem visitFlatLabel_spec {scratch : FlatScratch} (h : scratch.Valid H.xxhash64 symbols)
    (pair : InternedKeyValue) :
    let out := visitFlatLabel H.xxhash64 symbols scratch pair
    out.Valid H.xxhash64 symbols ∧
      ((scratch.metricNameSeen → (pair.resolve symbols).1 ≠ metricNameLabel) →
        out.labels.map (resolveSourceLabel symbols) =
            scratch.labels.map (resolveSourceLabel symbols) ++
              [canonicalLabel H (pair.resolve symbols)] ∧
          (out.metricNameSeen ↔
            scratch.metricNameSeen ∨ (pair.resolve symbols).1 = metricNameLabel)) := by
  have hmetricName := normalizedName_spec h.cache.metricNames scratch.cache.maxEntries pair.value
  have hlabelName := normalizedName_spec h.cache.labelNames scratch.cache.maxEntries pair.key
  unfold visitFlatLabel
  by_cases hmetric : resolve symbols pair.key = metricNameLabel
  · have hlabel : canonicalLabel H (pair.resolve symbols) = (metricNameLabel,
        normalizeMetricName H.xxhash64 (resolve symbols pair.value)) := by
      rw [InternedKeyValue.resolve, hmetric, canonicalLabel_metric]
    rw [if_pos hmetric]
    by_cases hseen : scratch.metricNameSeen
    · rw [if_pos hseen]
      exact ⟨h, fun hnot => absurd hmetric (hnot hseen)⟩
    rw [if_neg hseen]
    refine ⟨FlatScratch.Valid.push ?_ _, fun _ => ⟨?_, ?_⟩⟩
    · exact ⟨⟨h.cache.labelNames, hmetricName.2⟩, h.sorted⟩
    · rw [hlabel, ← hmetricName.1]
      exact map_append
    · exact iff_of_true rfl (.inr hmetric)
  have hlabel : canonicalLabel H (pair.resolve symbols) =
      (normalizeLabelName H.xxhash64 (resolve symbols pair.key), resolve symbols pair.value) :=
    if_neg hmetric
  rw [if_neg hmetric]
  refine ⟨FlatScratch.Valid.push ?_ _, fun _ => ⟨?_, ?_⟩⟩
  · exact ⟨⟨hlabelName.2, h.cache.metricNames⟩, h.sorted⟩
  · rw [hlabel, ← hlabelName.1]
    exact map_append
  · exact (or_iff_left hmetric).symm

variable {pairs : List InternedKeyValue}

theorem foldl_visitFlatLabel {scratch : FlatScratch} (h : scratch.Valid H.xxhash64 symbols)
    (hcount : metricNameCount (pairs.map (InternedKeyValue.resolve symbols)) ≤ 1)
    (hseen : scratch.metricNameSeen →
      metricNameCount (pairs.map (InternedKeyValue.resolve symbols)) = 0) :
    let out := pairs.foldl (visitFlatLabel H.xxhash64 symbols) scratch
    out.labels.map (resolveSourceLabel symbols) = scratch.labels.map (resolveSourceLabel symbols) ++
        (pairs.map (InternedKeyValue.resolve symbols)).map (canonicalLabel H) ∧
      (out.metricNameSeen ↔ scratch.metricNameSeen ∨
        metricNameCount (pairs.map (InternedKeyValue.resolve symbols)) = 1) := by
  induction pairs generalizing scratch with
  | nil => exact ⟨by simp, by simp [metricNameCount]⟩
  | cons pair pairs ih =>
    rw [map_cons, metricNameCount_cons] at hcount hseen
    have hle := metricNameCount_singleton_le (pair.resolve symbols)
    have hmetric : metricNameCount [pair.resolve symbols] = 1 ↔
        (pair.resolve symbols).1 = metricNameLabel := by
      simp [metricNameCount, countP_singleton]
    obtain ⟨hvalid, hfirst⟩ := visitFlatLabel_spec h pair
    have hfirst := hfirst fun hs hname => by
      have hone := hmetric.mpr hname
      have hzero := hseen hs
      omega
    have hrest := ih hvalid (by omega) fun hs => by
      rcases hfirst.2.mp hs with hs | hname
      · have hzero := hseen hs
        omega
      · have hone := hmetric.mpr hname
        omega
    refine ⟨?_, hrest.2.trans ?_⟩
    · rw [foldl_cons, hrest.1, hfirst.1, append_assoc]
      rfl
    rw [hfirst.2, ← hmetric, map_cons, metricNameCount_cons _ (pairs.map _), or_assoc]
    refine or_congr_right ⟨fun hone => ?_, fun hone => ?_⟩
    · rcases hone with hone | hone <;> omega
    · omega

theorem foldl_visitFlatLabel_valid {scratch : FlatScratch} (h : scratch.Valid H.xxhash64 symbols) :
    (pairs.foldl (visitFlatLabel H.xxhash64 symbols) scratch).Valid H.xxhash64 symbols := by
  induction pairs generalizing scratch with
  | nil => exact h
  | cons pair pairs ih => exact ih (visitFlatLabel_spec h pair).1

theorem NormalizedNameCache.Reachable.valid {cache : NormalizedNameCache}
    (h : cache.Reachable H.xxhash64 symbols) : cache.Valid H.xxhash64 symbols := by
  induction h with
  | withMaxEntries maxEntries => exact ⟨fun _ _ h => (by cases h), fun _ _ h => (by cases h)⟩
  | @prepare cache pairs _ ih =>
    have hvalid := @foldl_visitFlatLabel_valid H symbols pairs ⟨cache, [], false, true⟩
      ⟨ih, fun _ => List.Pairwise.nil⟩
    unfold prepareFlatInternedLabelMetadata FlatScratch.withMetricName
    split
    · exact hvalid.cache
    · exact hvalid.cache

theorem FlatScratch.Valid.keepLast_sortedLabels {scratch : FlatScratch}
    (h : scratch.Valid H.xxhash64 symbols) :
    KeepLast.Increasing Prod.fst (keepLast Prod.fst scratch.sortedLabels) ∧
      ∀ name, last? Prod.fst name (keepLast Prod.fst scratch.sortedLabels) =
        last? Prod.fst name scratch.labels := by
  unfold FlatScratch.sortedLabels
  split
  · rename_i hsorted
    exact ⟨keepLast_increasing (h.sorted hsorted),
      fun name => last?_keepLast name _⟩
  · exact keepLast_mergeSort_key _

theorem appendFlatInternedSortedLabels_eq {cache : NormalizedNameCache}
    (hcache : cache.Reachable H.xxhash64 symbols)
    (hpairs : RowOf symbols pairs row) (h : metricNameCount row = 1) :
    let labels := (prepareFlatInternedLabelMetadata H.xxhash64 symbols cache pairs).2
    appendFlatInternedSortedLabels symbols labels =
        (canonicalRow H row, seriesIdBytes (canonicalRow H row)) ∧
      canonicalFlatLabelCount labels = (canonicalRow H row).length := by
  obtain ⟨-, hrow⟩ := rowOf_iff.mp hpairs
  have hstart : FlatScratch.Valid H.xxhash64 symbols ⟨cache, [], false, true⟩ :=
    ⟨hcache.valid, fun _ => List.Pairwise.nil⟩
  obtain ⟨hlabels, hseen⟩ := @foldl_visitFlatLabel H symbols pairs _ hstart (hrow ▸ h.le)
    fun hs => by cases hs
  have hvalid := @foldl_visitFlatLabel_valid H symbols pairs _ hstart
  rw [hrow] at hlabels hseen
  have hprepared : (prepareFlatInternedLabelMetadata H.xxhash64 symbols cache pairs).2 =
      (pairs.foldl (visitFlatLabel H.xxhash64 symbols) ⟨cache, [], false, true⟩).sortedLabels :=
    congrArg FlatScratch.sortedLabels (if_pos (hseen.mpr (.inr h)))
  obtain ⟨hincreasing, hlast⟩ := hvalid.keepLast_sortedLabels
  have hfst : ∀ label, (resolveSourceLabel symbols label).1 = label.1 := fun _ => rfl
  have hwritten : (keepLast Prod.fst (prepareFlatInternedLabelMetadata H.xxhash64
      symbols cache pairs).2).map (resolveSourceLabel symbols) = canonicalRow H row := by
    rw [hprepared]
    refine eq_canonicalRow (hincreasing.map hfst) fun name => ?_
    rw [last?_map hfst, hlast, ← last?_map hfst, hlabels]
    rfl
  refine ⟨?_, ?_⟩
  · have hresolve : (fun label : String × SourceLabelValue =>
        (label.1, resolveSourceLabelValue symbols label.2)) = resolveSourceLabel symbols := rfl
    simp [appendFlatInternedSortedLabels, lastOfRuns_eq_keepLast, hresolve, hwritten]
  · rw [canonicalFlatLabelCount, runCount_eq_length, ← hwritten, length_map]

theorem canonicalRow_rest (H : LabelHashes) (row : List (String × String)) :
    ∀ label ∈ canonicalRow H row, ∀ ch ∈ label.1.toList, isLabelRest ch := by
  intro label hlabel
  obtain ⟨stored, -, rfl⟩ := mem_of_mem_canonicalRow hlabel
  by_cases hmetric : stored.1 = metricNameLabel
  · rw [(canonicalLabel_fst_eq_metricNameLabel_iff H stored).mpr hmetric]
    exact all_eq_true.mp (by decide)
  · rw [canonicalLabel_of_ne hmetric]
    exact normalizeLabelName_rest H.xxhash64 stored.1

open VersionedFlatInternedLabelSetStore in
/-- The live store, the head and the segment writer give a stored row the same canonical labels and
hash the same bytes, and these bytes determine the labels. -/
theorem series_identity_agrees {store : VersionedFlatInternedLabelSetStore}
    (hstore : Reachable H store) {series : SeriesRef} (hrow : store.Holds series row)
    (hmetric : metricNameCount row = 1) {headLabels : List (List (String × String))}
    {headSeries : SeriesRef} (hhead : headLabels[headSeries.get.toNat]? = some row)
    {pairs : List InternedKeyValue} (hpairs : RowOf symbols pairs row)
    {cache : NormalizedNameCache} (hcache : cache.Reachable H.xxhash64 symbols) :
    ∃ (canonical : List (String × String)) (ids : List InternedKeyValue),
      store.canonicalRows[series.get.toNat]? = some ids ∧
      RowOf store.symbols.symbols ids canonical ∧
      (∀ result, validatedRow H store.snapshot series = .ok result →
        result = (H.xxhash64 (seriesIdBytes canonical), ids)) ∧
      canonicalHeadLabelset H.xxhash64 headLabels headSeries =
        some (H.xxhash64 (seriesIdBytes canonical), canonical) ∧
      (row.foldl (SegmentSeriesMetadataBuilder.pushLabel H.xxhash64) .new).finish H.xxhash64 =
        ⟨H.xxhash64 (seriesIdBytes canonical), canonical⟩ ∧
      canonicalLabelVisitorMetadata H.xxhash64 row = canonical ∧
      (let labels := (prepareFlatInternedLabelMetadata H.xxhash64 symbols cache pairs).2
      appendFlatInternedSortedLabels symbols labels = (canonical, seriesIdBytes canonical) ∧
        canonicalFlatLabelCount labels = canonical.length) ∧
      ∀ other, seriesIdBytes (canonicalRow H other) = seriesIdBytes canonical →
        canonicalRow H other = canonical := by
  obtain ⟨ids, hids, hcanonical⟩ := hstore.valid.exists_canonicalRow hrow
  refine ⟨canonicalRow H row, ids, hids, hcanonical, fun result hresult => ?_,
    canonicalHeadLabelset_eq hmetric hhead, segmentSeriesMetadataBuilder_eq hmetric,
    canonicalLabelVisitorMetadata_eq hmetric,
    appendFlatInternedSortedLabels_eq hcache hpairs hmetric, fun other hbytes => ?_⟩
  · have hok := @validatedRow_ok_iff H store.snapshot series ids _ hids hcanonical result
    exact (hok.mp hresult).2.2.2
  · exact seriesIdBytes_inj (canonicalRow_rest H other) (canonicalRow_rest H row) hbytes

open VersionedFlatInternedLabelSetStore in
theorem series_identity_agrees_job :
    canonicalLabelVisitorMetadata zeroHashes.xxhash64 [("__name__", "up"), ("job", "api")] =
      (appendFlatInternedSortedLabels ["__name__", "up", "job", "api"]
        (prepareFlatInternedLabelMetadata zeroHashes.xxhash64 ["__name__", "up", "job", "api"]
          (.withMaxEntries 1) [⟨0, 1⟩, ⟨2, 3⟩]).2).1 := by
  have hok : ((internIter zeroHashes noFaults [("__name__", "up"), ("job", "api")]).exec
      (empty 10 10)).1 = .ok ⟨0⟩ := rfl
  have hpost := (internLabels_triple _).of_ok (valid_empty 10 10) hok
  have hstore := Reachable.intern (H := zeroHashes) noFaults [("__name__", "up"), ("job", "api")]
    (.empty 10 10)
  have hpairs : RowOf ["__name__", "up", "job", "api"] [⟨0, 1⟩, ⟨2, 3⟩]
      [("__name__", "up"), ("job", "api")] := .cons ⟨rfl, rfl⟩ (.cons ⟨rfl, rfl⟩ .nil)
  have hhead : [[("__name__", "up"), ("job", "api")]][(⟨0⟩ : SeriesRef).get.toNat]? =
      some [("__name__", "up"), ("job", "api")] := rfl
  obtain ⟨canonical, ids, -, -, -, -, -, hvisitor, hflat, -⟩ := series_identity_agrees hstore
    hpost.2 (by decide) hhead hpairs (.withMaxEntries 1)
  exact hvisitor.trans (congrArg Prod.fst hflat.1).symm

end

end Chronoxide
