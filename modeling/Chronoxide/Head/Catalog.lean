import Chronoxide.Labels.VersionedFlat

/-! The live catalog (`head/catalog.rs`): the check that a label row passes when it is published. -/

namespace Chronoxide
open Codec List

def labelError (error : VersionedFlatLabelStoreError) : IoError := ⟨.invalidData, error.display⟩

structure RowScan where
  previousName : Option String
  metricNames : Nat
  idBytes : Bytes
  pairs : List InternedKeyValue

section
variable (H : LabelHashes) (labels : VersionedFlatInternedLabelSetSnapshot)

def validateName (metricNames : Nat) (name value : String) : Except IoError Nat :=
  if name = metricNameLabel then do
    require (metricNames < counterMax 8)
      (invalidData "live catalog metric-name count overflows u8")
    require (normalizeMetricName H.xxhash64 value = value)
      (invalidData "live catalog metric identity is not in canonical PromQL form")
    return metricNames + 1
  else do
    require (normalizeLabelName H.xxhash64 name = name)
      (invalidData "live catalog label name is not in canonical PromQL form")
    return metricNames

def scanLabel (scan : RowScan) (pair : InternedKeyValue) : Except IoError RowScan := do
  let name ← (labels.tryResolve pair.key).mapError labelError
  let value ← (labels.tryResolve pair.value).mapError labelError
  require (∀ previous ∈ scan.previousName, previous < name)
    (invalidData "live catalog label row is not strictly canonical by label name")
  let metricNames ← validateName H scan.metricNames name value
  return ⟨some name, metricNames, scan.idBytes ++ seriesIdBytes [(name, value)],
    scan.pairs ++ [pair]⟩

-- Reservations are taken to succeed.
def validatedRow (series : SeriesRef) : Except IoError (UInt64 × List InternedKeyValue) := do
  let row ← (labels.tryCanonicalLabelsetSymbolIds series).mapError labelError
  let scan ← row.foldlM (scanLabel H labels) ⟨none, 0, [], []⟩
  require (scan.metricNames = 1)
    (invalidData "live catalog label row must contain exactly one canonical metric identity")
  return (H.xxhash64 scan.idBytes, scan.pairs)

end

section
variable {H : LabelHashes} {labels : VersionedFlatInternedLabelSetSnapshot}

theorem tryResolve_ok {id : SymbolId} {symbol : String} (h : labels.symbols[id]? = some symbol) :
    (labels.tryResolve id).mapError labelError = .ok symbol := by
  rw [VersionedFlatInternedLabelSetSnapshot.tryResolve, h]
  rfl

def metricNameCount (row : List (String × String)) : Nat :=
  row.countP fun label => label.1 = metricNameLabel

variable (label : String × String)

theorem metricNameCount_cons (row : List (String × String)) :
    metricNameCount (label :: row) = metricNameCount [label] + metricNameCount row := by
  rw [metricNameCount, ← singleton_append, countP_append]
  rfl

theorem metricNameCount_singleton_le : metricNameCount [label] ≤ 1 :=
  countP_le_length

theorem validateName_ok_iff {count count' : Nat} {label : String × String} :
    validateName H count label.1 label.2 = .ok count' ↔
      canonicalLabel H label = label ∧ (label.1 = metricNameLabel → count < counterMax 8) ∧
        count' = count + metricNameCount [label] := by
  obtain ⟨name, value⟩ := label
  unfold validateName canonicalLabel metricNameCount
  by_cases hmetric : name = metricNameLabel
  · simp only [hmetric, if_true, require_bind_ok, except_pure_ok,
      Prod.mk.injEq, true_and, forall_const, countP_singleton, decide_true]
    tauto
  simp only [hmetric, if_false, require_bind_ok, except_pure_ok, Prod.mk.injEq, and_true,
    IsEmpty.forall_iff, true_and, countP_singleton, decide_false, Bool.false_eq_true, Nat.add_zero]
  tauto

theorem scanLabel_ok_iff {pair : InternedKeyValue} {label : String × String}
    (hpair : pair.Resolves labels.symbols label) (scan scan' : RowScan) :
    scanLabel H labels scan pair = .ok scan' ↔
      (∀ previous ∈ scan.previousName, previous < label.1) ∧ canonicalLabel H label = label ∧
        (label.1 = metricNameLabel → scan.metricNames < counterMax 8) ∧
        scan' = ⟨some label.1, scan.metricNames + metricNameCount [label],
          scan.idBytes ++ seriesIdBytes [label], scan.pairs ++ [pair]⟩ := by
  unfold scanLabel
  simp only [tryResolve_ok hpair.1, tryResolve_ok hpair.2, except_bind_ok, Except.ok.injEq,
    exists_eq_left', require_ok, exists_const, validateName_ok_iff, except_pure_ok]
  constructor
  · rintro ⟨hless, count, ⟨hcanonical, hcount, rfl⟩, rfl⟩
    exact ⟨hless, hcanonical, hcount, rfl⟩
  · rintro ⟨hless, hcanonical, hcount, rfl⟩
    exact ⟨hless, _, ⟨hcanonical, hcount, rfl⟩, rfl⟩

theorem isChain_toList_append_cons {previous : Option String} {name : String}
    {names : List String} :
    (previous.toList ++ name :: names).IsChain (· < ·) ↔
      (∀ p ∈ previous, p < name) ∧ (name :: names).IsChain (· < ·) := by
  cases previous with
  | none => simp
  | some p => simp [isChain_cons_cons]

theorem scanRow_ok_iff {row : List InternedKeyValue} {names : List (String × String)}
    (hrow : RowOf labels.symbols row names) (scan scan' : RowScan)
    (hcount : scan.metricNames ≤ counterMax 8) :
    row.foldlM (scanLabel H labels) scan = .ok scan' ↔
      (scan.previousName.toList ++ names.map Prod.fst).IsChain (· < ·) ∧
        (∀ label ∈ names, canonicalLabel H label = label) ∧
        scan.metricNames + metricNameCount names ≤ counterMax 8 ∧
        scan' = ⟨(names.map Prod.fst).getLast?.or scan.previousName,
          scan.metricNames + metricNameCount names,
          scan.idBytes ++ seriesIdBytes names, scan.pairs ++ row⟩ := by
  induction hrow generalizing scan with
  | nil =>
    have hprevious : (scan.previousName.toList ++ []).IsChain (· < ·) := by
      cases scan.previousName <;> simp
    have hend : scan = ⟨([] : List String).getLast?.or scan.previousName,
        scan.metricNames + metricNameCount [], scan.idBytes ++ seriesIdBytes [],
        scan.pairs ++ []⟩ := by
      simp [metricNameCount, seriesIdBytes]
    rw [foldlM_nil, except_pure_ok, map_nil, ← hend]
    exact ⟨fun heq => ⟨hprevious, by simp, hcount, heq.symm⟩, fun h => h.2.2.2.symm⟩
  | @cons pair label row names hpair hrow ih =>
    rw [foldlM_cons, except_bind_ok]
    simp only [scanLabel_ok_iff hpair, map_cons, isChain_toList_append_cons,
      metricNameCount_cons label names, forall_mem_cons]
    have hone := metricNameCount_singleton_le label
    have hroom : (label.1 = metricNameLabel → scan.metricNames < counterMax 8) ↔
        scan.metricNames + metricNameCount [label] ≤ counterMax 8 := by
      by_cases hmetric : label.1 = metricNameLabel
      · have hcounted : metricNameCount [label] = 1 := by simp [metricNameCount, hmetric]
        rw [hcounted, Nat.succ_le_iff]
        exact ⟨fun hroom => hroom hmetric, fun hroom _ => hroom⟩
      · simp [metricNameCount, hmetric, hcount]
    rw [hroom, seriesIdBytes_cons label names]
    constructor
    · rintro ⟨_, ⟨hless, hlabel, hle, rfl⟩, hrest⟩
      obtain ⟨hchain, hnames, hbound, rfl⟩ := (ih _ hle).mp hrest
      refine ⟨⟨hless, hchain⟩, ⟨hlabel, hnames⟩, Nat.add_assoc .. ▸ hbound, ?_⟩
      simp [getLast?_cons, Nat.add_assoc]
    rintro ⟨⟨hless, hchain⟩, ⟨hlabel, hnames⟩, hbound, rfl⟩
    rw [← Nat.add_assoc] at hbound
    have hle := (Nat.le_add_right _ _).trans hbound
    refine ⟨_, ⟨hless, hlabel, hle, rfl⟩, (ih _ hle).mpr ⟨hchain, hnames, hbound, ?_⟩⟩
    simp [getLast?_cons, Nat.add_assoc]

theorem validatedRow_ok_iff {series : SeriesRef} {row : List InternedKeyValue}
    {names : List (String × String)}
    (hseries : labels.canonicalRows[series.get.toNat]? = some row)
    (hrow : RowOf labels.symbols row names) (result : UInt64 × List InternedKeyValue) :
    validatedRow H labels series = .ok result ↔
      KeepLast.Increasing Prod.fst names ∧ (∀ label ∈ names, canonicalLabel H label = label) ∧
        metricNameCount names = 1 ∧ result = (seriesId H.xxhash64 names, row) := by
  have hlookup : (labels.tryCanonicalLabelsetSymbolIds series).mapError labelError = .ok row := by
    rw [VersionedFlatInternedLabelSetSnapshot.tryCanonicalLabelsetSymbolIds, hseries]
    rfl
  have hchain : (names.map Prod.fst).IsChain (· < ·) ↔ KeepLast.Increasing Prod.fst names := by
    rw [isChain_iff_pairwise, pairwise_map]
    rfl
  have hscan := fun scan => @scanRow_ok_iff H labels row names hrow ⟨none, 0, [], []⟩ scan
    (Nat.zero_le _)
  unfold validatedRow
  rw [hlookup]
  simp only [except_bind_ok, Except.ok.injEq, exists_eq_left', require_ok, exists_const,
    except_pure_ok, hscan, Option.toList_none, nil_append, Nat.zero_add, hchain]
  constructor
  · rintro ⟨_, ⟨hincreasing, hnames, -, rfl⟩, hone, rfl⟩
    exact ⟨hincreasing, hnames, hone, rfl⟩
  rintro ⟨hincreasing, hnames, hone, rfl⟩
  refine ⟨_, ⟨hincreasing, hnames, ?_, rfl⟩, hone, rfl⟩
  rw [hone]
  decide

variable (H)

theorem canonicalLabel_fst_eq_metricNameLabel_iff :
    (canonicalLabel H label).1 = metricNameLabel ↔ label.1 = metricNameLabel := by
  unfold canonicalLabel
  split
  · exact Iff.rfl
  · rename_i hne
    exact iff_of_false (normalizeLabelName_ne_metricNameLabel H.xxhash64 _) hne

theorem canonicalLabel_idempotent_iff :
    canonicalLabel H (canonicalLabel H label) = canonicalLabel H label ↔
      ¬labelNameRules.collapses label.1 := by
  by_cases hmetric : label.1 = metricNameLabel
  · have hkept : ¬labelNameRules.collapses label.1 := by
      rw [hmetric]
      decide
    refine iff_of_true ?_ hkept
    simp [canonicalLabel, if_pos hmetric, normalizeMetricName_idempotent]
  · have hother := normalizeLabelName_ne_metricNameLabel H.xxhash64 label.1
    rw [← normalizeLabelName_idempotent_iff H.xxhash64]
    simp [canonicalLabel, if_neg hmetric, if_neg hother]

variable {H}

theorem metricNameCount_canonicalRow {row : List (String × String)}
    (h : ∃ label ∈ row, label.1 = metricNameLabel) : metricNameCount (canonicalRow H row) = 1 := by
  obtain ⟨label, hlabel, hmetric⟩ := h
  obtain ⟨canonical, hmem, hfst⟩ := exists_mem_canonicalRow H hlabel
  rw [(canonicalLabel_fst_eq_metricNameLabel_iff H label).mpr hmetric] at hfst
  have hincreasing := canonicalRow_increasing H row
  rw [metricNameCount, countP_eq_length_filter, hincreasing.filter_eq, ← hfst,
    hincreasing.mem_iff.mp hmem]
  rfl

theorem canonicalRow_canonical_iff {row : List (String × String)} :
    (∀ label ∈ canonicalRow H row, canonicalLabel H label = label) ↔
      ∀ label ∈ row, ¬labelNameRules.collapses label.1 := by
  constructor
  · intro hfixed stored hstored
    by_cases hmetric : stored.1 = metricNameLabel
    · rw [hmetric]
      decide
    obtain ⟨label, hlabel, hfst⟩ := exists_mem_canonicalRow H hstored
    have hother := normalizeLabelName_ne_metricNameLabel H.xxhash64 stored.1
    have hname : label.1 = normalizeLabelName H.xxhash64 stored.1 := by
      rw [hfst, canonicalLabel, if_neg hmetric]
    have hself := congrArg Prod.fst (hfixed label hlabel)
    rw [canonicalLabel, if_neg (hname ▸ hother)] at hself
    rw [← normalizeLabelName_idempotent_iff H.xxhash64, ← hname]
    exact hself
  · intro hkept label hlabel
    obtain ⟨stored, hstored, rfl⟩ := mem_of_mem_canonicalRow hlabel
    exact (canonicalLabel_idempotent_iff H stored).mpr (hkept stored hstored)

end

section
open VersionedFlatInternedLabelSetStore

variable {H : LabelHashes}

theorem validatedRow_of_holds_iff {store : VersionedFlatInternedLabelSetStore}
    (hvalid : store.Valid H) {series : SeriesRef} {row : List (String × String)}
    (hrow : store.Holds series row) (hmetric : ∃ label ∈ row, label.1 = metricNameLabel) :
    (∃ result, validatedRow H store.snapshot series = .ok result) ↔
      ∀ label ∈ row, ¬labelNameRules.collapses label.1 := by
  obtain ⟨canonical, hcanonical, hnames⟩ := hvalid.exists_canonicalRow hrow
  rw [← @canonicalRow_canonical_iff H]
  have hok := @validatedRow_ok_iff H store.snapshot series canonical _ hcanonical hnames
  constructor
  · rintro ⟨result, hresult⟩
    exact ((hok result).mp hresult).2.1
  · intro hfixed
    exact ⟨_, (hok _).mpr ⟨canonicalRow_increasing H row, hfixed,
      metricNameCount_canonicalRow hmetric, rfl⟩⟩

/-- The row of accepted labels is published exactly if no label name collapses to an underscore,
which is where normalization is not idempotent. -/
theorem interned_row_published_iff {store store' : VersionedFlatInternedLabelSetStore}
    (hstore : Reachable H store) (faults : InternFaults) (labels : BuiltLabelSet)
    (series : SeriesRef) (hmetric : metricNameCount labels.labels = 1)
    (haccepted : (internIter H faults labels.labels).exec store = (.ok series, store') ∨
      (internPreparedOtlp H faults labels).exec store = (.ok series, store')) :
    ((∃ result, validatedRow H store'.snapshot series = .ok result) ↔
        ∀ label ∈ labels.labels, ¬labelNameRules.collapses label.1) ∧
      ((∀ label ∈ labels.labels, canonicalLabel H (canonicalLabel H (storedLabel H label)) =
          canonicalLabel H (storedLabel H label)) ↔
        ∀ label ∈ labels.labels, ¬labelNameRules.collapses label.1) := by
  have haccepted : (internLabels H faults labels.labels).exec store = (.ok series, store') :=
    haccepted.elim id id
  have hpost := (internLabels_triple _).of_ok hstore.valid (congrArg Prod.fst haccepted)
  rw [haccepted] at hpost
  obtain ⟨hvalid, hrow⟩ := hpost
  have hcollapses := collapses_normalizeLabelKey H
  have hstored : ∃ label ∈ labels.labels.map (storedLabel H), label.1 = metricNameLabel := by
    have hpos : 0 < metricNameCount labels.labels := hmetric ▸ Nat.one_pos
    obtain ⟨label, hmem, hname⟩ := countP_pos_iff.mp hpos
    refine ⟨_, mem_map_of_mem hmem, ?_⟩
    exact (normalizeLabelKey_eq_metricNameLabel_iff H label.1).mpr (by simpa using hname)
  constructor
  · rw [validatedRow_of_holds_iff hvalid hrow hstored, forall_mem_map]
    exact forall₂_congr fun label _ => not_congr (hcollapses label.1)
  · refine forall₂_congr fun label _ => ?_
    rw [canonicalLabel_idempotent_iff]
    exact not_congr (hcollapses label.1)

def zeroHashes : LabelHashes := ⟨fun _ => 0, fun _ => 0, fun _ => 0, fun _ => 0⟩

def noFaults : InternFaults := ⟨none, fun _ => none, none⟩

theorem interned_row_published_job :
    ∃ result, validatedRow zeroHashes ((internIter zeroHashes noFaults
      [("__name__", "up"), ("job", "api")]).exec (empty 10 10)).2.snapshot ⟨0⟩ = .ok result := by
  have hiff := interned_row_published_iff (Reachable.empty 10 10) noFaults
    ⟨[("__name__", "up"), ("job", "api")], 0⟩ ⟨0⟩ (by decide)
    (H := zeroHashes) (.inl (Prod.ext rfl rfl))
  exact hiff.1.mpr (by decide)

/-- An attribute with an empty key is interned and stops the publication. -/
theorem empty_label_name_not_published :
    ((internIter zeroHashes noFaults [("", "v"), ("__name__", "up")]).exec (empty 10 10)).1 =
        .ok ⟨0⟩ ∧
      ¬∃ result, validatedRow zeroHashes ((internIter zeroHashes noFaults
        [("", "v"), ("__name__", "up")]).exec (empty 10 10)).2.snapshot ⟨0⟩ = .ok result := by
  have hok : ((internIter zeroHashes noFaults [("", "v"), ("__name__", "up")]).exec
      (empty 10 10)).1 = .ok ⟨0⟩ := rfl
  have hpost := (internLabels_triple _).of_ok (valid_empty 10 10) hok
  refine ⟨hok, fun hpublished => ?_⟩
  have hkept := (validatedRow_of_holds_iff hpost.1 hpost.2
    ⟨("__name__", "up"), by decide, rfl⟩).mp hpublished
  exact hkept ("", "v") (by decide) rfl

end

end Chronoxide
