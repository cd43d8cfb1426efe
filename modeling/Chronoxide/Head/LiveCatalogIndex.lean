import Chronoxide.Head.LiveCatalog

/-! The live catalog as an inverted index. Activating a series adds one to every count of its labels
and retiring it takes one off, so the counts stay those of the active series. -/

namespace Chronoxide
open Codec Faults AvlMap SortedSet PersistentMap List

variable {pair : InternedKeyValue}

section
variable {H : LabelHashes} {labels : VersionedFlatInternedLabelSetSnapshot}

theorem exists_resolves_of_scanLabel {scan scan' : RowScan}
    (h : scanLabel H labels scan pair = .ok scan') :
    ∃ label, pair.Resolves labels.symbols label := by
  have hresolve : ∀ id symbol, (labels.tryResolve id).mapError labelError = .ok symbol →
      labels.symbols[id]? = some symbol := by
    intro id symbol hok
    unfold VersionedFlatInternedLabelSetSnapshot.tryResolve at hok
    split at hok
    · rename_i found hfound
      rw [hfound, Except.ok.inj hok]
    · cases hok
  unfold scanLabel at h
  simp only [except_bind_ok] at h
  obtain ⟨name, hname, value, hvalue, -⟩ := h
  exact ⟨(name, value), hresolve _ _ hname, hresolve _ _ hvalue⟩

theorem exists_rowOf_of_scan {row : List InternedKeyValue} {scan scan' : RowScan}
    (h : row.foldlM (scanLabel H labels) scan = .ok scan') :
    ∃ names, RowOf labels.symbols row names := by
  induction row generalizing scan with
  | nil => exact ⟨[], List.Forall₂.nil⟩
  | cons pair row ih =>
    rw [foldlM_cons, except_bind_ok] at h
    obtain ⟨next, hpair, hrow⟩ := h
    obtain ⟨label, hlabel⟩ := exists_resolves_of_scanLabel hpair
    obtain ⟨names, hnames⟩ := ih hrow
    exact ⟨label :: names, List.Forall₂.cons hlabel hnames⟩

theorem RowOf.nodup_keys {symbols : List String} {row : List InternedKeyValue}
    {names : List (String × String)} (h : RowOf symbols row names)
    (hnames : KeepLast.Increasing Prod.fst names) : (row.map InternedKeyValue.key).Nodup := by
  obtain ⟨-, rfl⟩ := rowOf_iff.mp h
  have hnodup : ((row.map InternedKeyValue.key).map (resolve symbols)).Nodup := by
    have hlt := pairwise_map.mpr hnames
    rw [map_map] at hlt ⊢
    exact hlt.imp fun hless => hless.ne
  exact hnodup.of_map

theorem validatedRow_pairs {series : SeriesRef} {seriesId : UInt64} {pairs : List InternedKeyValue}
    (h : validatedRow H labels series = .ok (seriesId, pairs)) :
    labels.canonicalRows[series.get.toNat]? = some pairs ∧
      (pairs.map InternedKeyValue.key).Nodup := by
  have hopened := h
  unfold validatedRow at hopened
  simp only [except_bind_ok] at hopened
  obtain ⟨row, hlookup, scan, hscan, -⟩ := hopened
  have hrow : labels.canonicalRows[series.get.toNat]? = some row := by
    unfold VersionedFlatInternedLabelSetSnapshot.tryCanonicalLabelsetSymbolIds at hlookup
    split at hlookup
    · rename_i found hfound
      rw [hfound, Except.ok.inj hlookup]
    · cases hlookup
  obtain ⟨names, hnames⟩ := exists_rowOf_of_scan hscan
  obtain ⟨hincreasing, -, -, heq⟩ := (validatedRow_ok_iff hrow hnames _).mp h
  rw [(Prod.mk.inj heq).2]
  exact ⟨hrow, hnames.nodup_keys hincreasing⟩

end

namespace CatalogMap

section
variable {κ ν : Type} [LinearOrder κ] {F : IoError → Prop} {map : CatalogMap κ ν} {key : κ}

theorem insert_gives (value : ν) (hentries : F catalogMapChecks.entriesOverflow) :
    Gives F (fun map' : CatalogMap κ ν =>
      ∀ k, map'.get k = if k = key then some value else map.get k) (map.insert key value) := by
  cases h : map.insert key value with
  | ok map' => exact get_insert h
  | error error =>
    rcases (insert_error h).1 with rfl | rfl
    · exact hentries
    · exact hentries

theorem take_gives {missing : IoError} (h : (map.get key).isSome) :
    Gives F (fun map' : CatalogMap κ ν => ∀ k, map'.get k = if k = key then none else map.get k)
      (map.take key missing) := by
  obtain ⟨map', hremove, hget⟩ := map.exists_remove key
  unfold take
  rw [hremove, h]
  exact hget

theorem validateRoot_ok (map : CatalogMap κ ν) : map.validateRoot = .ok () := by
  obtain ⟨root, hwf, -, hbounded⟩ := map
  cases root with
  | nil => rfl
  | node key value left right height entries => exact Tree.validateNode_ok hwf hbounded

end

variable {κ : Type} [LinearOrder κ] {F : IoError → Prop} {map : CatalogMap κ LabelMembership}
  {count count' : κ → Nat} {key : κ}

/-- The map holds these counts, and no entry where the count is zero. -/
def Tallies (map : CatalogMap κ LabelMembership) (count : κ → Nat) : Prop :=
  ∀ key, (map.get key).map LabelMembership.activeSeries =
    if count key = 0 then none else some (count key)

theorem Tallies.congr (h : map.Tallies count) (hcount : ∀ key, count key = count' key) :
    map.Tallies count' := by
  intro key
  rw [h key, hcount key]

theorem tallies_default (hcount : ∀ key, count key = 0) :
    (default : CatalogMap κ LabelMembership).Tallies count := by
  intro key
  rw [if_pos (hcount key)]
  rfl

theorem Tallies.get_none (h : map.Tallies count) (hget : map.get key = none) : count key = 0 := by
  have hkey := h key
  rw [hget] at hkey
  by_contra hne
  rw [if_neg hne] at hkey
  cases hkey

theorem Tallies.get_some (h : map.Tallies count) {membership : LabelMembership}
    (hget : map.get key = some membership) :
    count key = membership.activeSeries ∧ 0 < membership.activeSeries := by
  have hkey := h key
  rw [hget, Option.map_some] at hkey
  split at hkey
  · cases hkey
  · have heq := Option.some.inj hkey
    omega

def plusOne (count : κ → Nat) (key k : κ) : Nat := count k + if k = key then 1 else 0

theorem Tallies.set {map' : CatalogMap κ LabelMembership} {membership : LabelMembership}
    (hget : ∀ k, map'.get k = if k = key then some membership else map.get k)
    (hother : ∀ k, k ≠ key → count' k = count k) (h : map.Tallies count)
    (hkey : count' key = membership.activeSeries) (hpos : 0 < membership.activeSeries) :
    map'.Tallies count' := by
  intro k
  rw [hget k]
  by_cases heq : k = key
  · subst heq
    rw [if_pos rfl, if_neg (by omega), hkey]
    rfl
  · rw [if_neg heq, h k, hother k heq]

theorem Tallies.join (h : map.Tallies count) {rowRevision generation : Nat} {overflows : IoError}
    (hoverflows : F overflows) (hentries : F catalogMapChecks.entriesOverflow) :
    Gives F (fun map' : CatalogMap κ LabelMembership => map'.Tallies (plusOne count key))
      (map.join key rowRevision generation overflows) := by
  have hjoined : Gives F (fun membership => membership.activeSeries = count key + 1)
      (LabelMembership.joined (map.get key) rowRevision generation overflows) := by
    cases hget : map.get key with
    | none =>
      rw [h.get_none hget]
      exact rfl
    | some existing =>
      rw [(h.get_some hget).1]
      exact (gives_require fun _ => hoverflows).bind fun _ _ => rfl
  refine hjoined.bind fun membership hmembership => ?_
  refine (insert_gives membership hentries).post fun map' hget => ?_
  refine Tallies.set hget (fun k hne => ?_) h ?_ ?_
  · rw [plusOne, if_neg hne, Nat.add_zero]
  · rw [plusOne, if_pos rfl, hmembership]
  · omega

theorem Tallies.leave (h : map.Tallies (plusOne count key)) {disappeared notRetired : IoError}
    (hentries : F catalogMapChecks.entriesOverflow) :
    Gives F (fun map' : CatalogMap κ LabelMembership => map'.Tallies count)
      (map.leave key disappeared notRetired) := by
  have hother : ∀ k, k ≠ key → count k = plusOne count key k := by
    intro k hne
    rw [plusOne, if_neg hne, Nat.add_zero]
  have hplus : plusOne count key key = count key + 1 := by rw [plusOne, if_pos rfl]
  unfold CatalogMap.leave
  cases hget : map.get key with
  | none =>
    have hzero := h.get_none hget
    omega
  | some existing =>
    obtain ⟨hcount, hpos⟩ := h.get_some hget
    dsimp only
    split
    · rename_i hone
      refine (take_gives (by rw [hget]; rfl)).post fun map' hget' k => ?_
      rw [hget' k]
      by_cases heq : k = key
      · rw [if_pos heq, heq, if_pos (by omega)]
        rfl
      · rw [if_neg heq, h k, hother k heq]
    rename_i hmany
    refine (insert_gives _ hentries).post fun map' hget' => ?_
    refine Tallies.set hget' hother h ?_ ?_
    · simp only
      omega
    · simp only
      omega

end CatalogMap

def InternedKeyValue.valueKey (pair : InternedKeyValue) : LabelValueKey := ⟨pair.key, pair.value⟩

def InternedKeyValue.posting (pair : InternedKeyValue) (series : SeriesRef) : PostingKey :=
  ⟨pair.key, pair.value, series⟩

theorem InternedKeyValue.posting_inj {pair pair' : InternedKeyValue} {series series' : SeriesRef} :
    pair.posting series = pair'.posting series' ↔ pair = pair' ∧ series = series' := by
  obtain ⟨key, value⟩ := pair
  obtain ⟨key', value'⟩ := pair'
  simp [posting, and_assoc]

/-- The errors that a valid history leaves to an activation or a retirement. -/
inductive SeriesError (H : LabelHashes) (labels : CatalogLabels) : IoError → Prop
  | outside (series : SeriesRef) (h : labels.revision < series.get.toNat + 1) :
      SeriesError H labels (LiveSeriesCatalog.outsideRevision series labels)
  | row (series : SeriesRef) {error : IoError}
      (h : validatedRow H labels.toVersionedFlatInternedLabelSetSnapshot series = .error error) :
      SeriesError H labels error
  | nameOverflows : SeriesError H labels LiveSeriesCatalog.nameOverflows
  | valueOverflows : SeriesError H labels LiveSeriesCatalog.valueOverflows
  | entriesOverflow : SeriesError H labels
      (invalidData "live catalog map entry count overflows u64")

namespace LiveSeriesCatalog

variable {H : LabelHashes} {catalog builder builder' : LiveSeriesCatalog}
  {names : SymbolId → Nat} {postings : PostingKey → Prop} {values : LabelValueKey → Nat}
  {series : SeriesRef} {pairs : List InternedKeyValue}

structure Holds (builder : LiveSeriesCatalog) (names : SymbolId → Nat)
    (postings : PostingKey → Prop) (values : LabelValueKey → Nat) : Prop where
  names : builder.names.Tallies names
  postings : ∀ key, (builder.postings.get key).isSome ↔ postings key
  values : builder.values.Tallies values

structure SameSeries (builder builder' : LiveSeriesCatalog) : Prop where
  labels_eq : builder'.labels = builder.labels
  generation_eq : builder'.generation = builder.generation
  active_eq : builder'.active = builder.active

theorem SameSeries.trans {builder'' : LiveSeriesCatalog} (h : SameSeries builder builder')
    (h' : SameSeries builder' builder'') : SameSeries builder builder'' :=
  ⟨h'.labels_eq.trans h.labels_eq, h'.generation_eq.trans h.generation_eq,
    h'.active_eq.trans h.active_eq⟩

def namesWith (names : SymbolId → Nat) (pairs : List InternedKeyValue) (name : SymbolId) : Nat :=
  names name + pairs.countP fun pair => pair.key = name

def valuesWith (values : LabelValueKey → Nat) (pairs : List InternedKeyValue)
    (key : LabelValueKey) : Nat :=
  values key + pairs.countP fun pair => pair.valueKey = key

def postingsWith (postings : PostingKey → Prop) (series : SeriesRef)
    (pairs : List InternedKeyValue) (key : PostingKey) : Prop :=
  postings key ∨ ∃ pair ∈ pairs, key = pair.posting series

variable (pair) (name : SymbolId)

theorem namesWith_cons : namesWith names (pair :: pairs) name =
      CatalogMap.plusOne (namesWith names pairs) pair.key name := by
  simp [namesWith, CatalogMap.plusOne, countP_cons, decide_eq_true_eq,
    @eq_comm _ name pair.key, Nat.add_assoc]

theorem valuesWith_cons (key : LabelValueKey) : valuesWith values (pair :: pairs) key =
      CatalogMap.plusOne (valuesWith values pairs) pair.valueKey key := by
  simp only [valuesWith, CatalogMap.plusOne, countP_cons, decide_eq_true_eq, Nat.add_assoc]
  by_cases heq : pair.valueKey = key
  · rw [if_pos heq, if_pos heq.symm]
  · rw [if_neg heq, if_neg fun h => heq h.symm]

theorem namesWith_plusOne : namesWith (CatalogMap.plusOne names pair.key) pairs name =
      namesWith names (pair :: pairs) name := by
  rw [namesWith_cons]
  simp only [namesWith, CatalogMap.plusOne]
  omega

theorem valuesWith_plusOne (key : LabelValueKey) :
    valuesWith (CatalogMap.plusOne values pair.valueKey) pairs key =
      valuesWith values (pair :: pairs) key := by
  rw [valuesWith_cons]
  simp only [valuesWith, CatalogMap.plusOne]
  omega

variable {pair}

theorem activateLabel_gives (rowRevision : Nat)
    (h : builder.Holds names postings values) (hnew : ¬postings (pair.posting series)) :
    Gives (SeriesError H builder.labels) (fun builder' => SameSeries builder builder' ∧
        builder'.Holds (CatalogMap.plusOne names pair.key)
          (fun key => postings key ∨ key = pair.posting series)
          (CatalogMap.plusOne values pair.valueKey))
      (activateLabel series rowRevision builder pair) := by
  refine (h.names.join .nameOverflows .entriesOverflow).bind fun names' hnames => ?_
  have hnone : (builder.postings.get (pair.posting series)).isNone := by
    rw [← Option.not_isSome, Bool.not_eq_true', ← Bool.not_eq_true, h.postings]
    exact hnew
  refine (gives_require fun hc => absurd hnone hc).bind fun _ _ => ?_
  refine (CatalogMap.insert_gives _ .entriesOverflow).bind fun postings' hpostings => ?_
  refine (h.values.join .valueOverflows .entriesOverflow).bind fun values' hvalues => ?_
  refine ⟨⟨rfl, rfl, rfl⟩, hnames, fun key => ?_, hvalues⟩
  rw [hpostings key, ← h.postings key]
  split
  · rename_i heq
    exact iff_of_true rfl (.inr heq)
  · rename_i hne
    exact (or_iff_left hne).symm

theorem activateLabels_gives (rowRevision : Nat) (h : builder.Holds names postings values)
    (hnodup : pairs.Nodup) (hnew : ∀ pair ∈ pairs, ¬postings (pair.posting series)) :
    Gives (SeriesError H builder.labels) (fun builder' => SameSeries builder builder' ∧
        builder'.Holds (namesWith names pairs) (postingsWith postings series pairs)
          (valuesWith values pairs))
      (pairs.foldlM (activateLabel series rowRevision) builder) := by
  induction pairs generalizing builder names postings values with
  | nil => exact ⟨⟨rfl, rfl, rfl⟩, h.names, fun key => by simp [h.postings, postingsWith], h.values⟩
  | cons pair pairs ih =>
    obtain ⟨hpair, hnodup⟩ := nodup_cons.mp hnodup
    obtain ⟨hnewPair, hnew⟩ := forall_mem_cons.mp hnew
    refine (activateLabel_gives rowRevision h hnewPair).bind fun next hnext => ?_
    obtain ⟨hsame, hholds⟩ := hnext
    rw [← hsame.labels_eq]
    refine (ih hholds hnodup ?_).post ?_
    · rintro other hother (hold | heq)
      · exact hnew other hother hold
      · exact hpair ((InternedKeyValue.posting_inj.mp heq).1 ▸ hother)
    rintro last ⟨hsame', hlast⟩
    refine ⟨hsame.trans hsame', hlast.names.congr (namesWith_plusOne pair), fun key => ?_,
      hlast.values.congr (valuesWith_plusOne pair)⟩
    rw [hlast.postings key]
    simp [postingsWith, or_assoc]

theorem retireLabel_gives (h : builder.Holds (CatalogMap.plusOne names pair.key)
      (fun key => postings key ∨ key = pair.posting series)
      (CatalogMap.plusOne values pair.valueKey)) (hnew : ¬postings (pair.posting series)) :
    Gives (SeriesError H builder.labels) (fun builder' => SameSeries builder builder' ∧
        builder'.Holds names postings values) (retireLabel series builder pair) := by
  refine (h.names.leave .entriesOverflow).bind fun names' hnames => ?_
  have hsome : (builder.postings.get (pair.posting series)).isSome :=
    (h.postings _).mpr (.inr rfl)
  refine (CatalogMap.take_gives hsome).bind fun postings' hpostings => ?_
  refine (h.values.leave .entriesOverflow).bind fun values' hvalues => ?_
  refine ⟨⟨rfl, rfl, rfl⟩, hnames, fun key => ?_, hvalues⟩
  rw [hpostings key]
  split
  · rename_i heq
    rw [heq]
    exact iff_of_false (by simp) hnew
  · rename_i hne
    rw [h.postings key]
    exact or_iff_left hne

theorem retireLabels_gives (h : builder.Holds (namesWith names pairs)
      (postingsWith postings series pairs) (valuesWith values pairs)) (hnodup : pairs.Nodup)
    (hnew : ∀ pair ∈ pairs, ¬postings (pair.posting series)) :
    Gives (SeriesError H builder.labels) (fun builder' => SameSeries builder builder' ∧
        builder'.Holds names postings values) (pairs.foldlM (retireLabel series) builder) := by
  induction pairs generalizing builder with
  | nil => exact ⟨⟨rfl, rfl, rfl⟩, h.names, fun key => by simp [h.postings, postingsWith], h.values⟩
  | cons pair pairs ih =>
    obtain ⟨hpair, hnodup⟩ := nodup_cons.mp hnodup
    obtain ⟨hnewPair, hnew⟩ := forall_mem_cons.mp hnew
    have hholds : builder.Holds (CatalogMap.plusOne (namesWith names pairs) pair.key)
        (fun key => postingsWith postings series pairs key ∨ key = pair.posting series)
        (CatalogMap.plusOne (valuesWith values pairs) pair.valueKey) := by
      refine ⟨h.names.congr (namesWith_cons pair), fun key => ?_,
        h.values.congr (valuesWith_cons pair)⟩
      rw [h.postings key]
      simp only [postingsWith, exists_mem_cons_iff, or_assoc]
      exact or_congr_right or_comm
    refine (retireLabel_gives hholds ?_).bind fun next hnext => ?_
    · rintro (hold | ⟨other, hother, heq⟩)
      · exact hnewPair hold
      · exact hpair ((InternedKeyValue.posting_inj.mp heq).1 ▸ hother)
    · obtain ⟨hsame, hnextHolds⟩ := hnext
      rw [← hsame.labels_eq]
      exact (ih hnextHolds hnodup hnew).post fun last hlast => ⟨hsame.trans hlast.1, hlast.2⟩

variable (catalog)

def row (series : SeriesRef) : List InternedKeyValue :=
  (catalog.labels.canonicalRows[series.get.toNat]?).getD []

def nameCount : Nat :=
  catalog.active.keys.countP fun series => ∃ pair ∈ catalog.row series, pair.key = name

def valueCount (key : LabelValueKey) : Nat :=
  catalog.active.keys.countP fun series => ∃ pair ∈ catalog.row series, pair.valueKey = key

def Posted (key : PostingKey) : Prop :=
  key.series ∈ catalog.active.keys ∧ ⟨key.name, key.value⟩ ∈ catalog.row key.series

variable {catalog}

structure Indexed (catalog : LiveSeriesCatalog) : Prop where
  rows : ∀ series ∈ catalog.active.keys, ∃ row,
    catalog.labels.canonicalRows[series.get.toNat]? = some row ∧
      (row.map InternedKeyValue.key).Nodup
  holds : catalog.Holds catalog.nameCount catalog.Posted catalog.valueCount

theorem countP_eq_ite {α β : Type} [DecidableEq β] {f : α → β} {l : List α} (h : (l.map f).Nodup)
    (b : β) : l.countP (fun a => f a = b) = if ∃ a ∈ l, f a = b then 1 else 0 := by
  have hcount := h.count (a := b)
  rw [count_eq_countP, countP_map] at hcount
  have hfun : (fun a => decide (f a = b)) = (fun x => x == b) ∘ f := by
    funext a
    rw [Function.comp, Bool.beq_eq_decide_eq]
  rw [hfun, hcount]
  exact if_congr mem_map rfl rfl

theorem nodup_of_keys (h : (pairs.map InternedKeyValue.key).Nodup) : pairs.Nodup := h.of_map

theorem nodup_valueKeys (h : (pairs.map InternedKeyValue.key).Nodup) :
    (pairs.map InternedKeyValue.valueKey).Nodup := by
  have hkeys : ((pairs.map InternedKeyValue.valueKey).map LabelValueKey.name).Nodup := by
    rw [map_map]
    exact h
  exact hkeys.of_map

structure Extends (builder builder' : LiveSeriesCatalog) (series : SeriesRef)
    (pairs : List InternedKeyValue) : Prop where
  labels_eq : builder'.labels = builder.labels
  keys_perm : builder'.active.keys.Perm (series :: builder.active.keys)
  row_eq : builder.labels.canonicalRows[series.get.toNat]? = some pairs
  distinct : (pairs.map InternedKeyValue.key).Nodup

section
variable (h : Extends builder builder' series pairs)
include h

theorem Extends.row : builder'.row series = pairs := by
  rw [LiveSeriesCatalog.row, h.labels_eq, h.row_eq, Option.getD_some]

theorem Extends.rows_eq (other : SeriesRef) : builder'.row other = builder.row other := by
  rw [LiveSeriesCatalog.row, LiveSeriesCatalog.row, h.labels_eq]

theorem Extends.nameCount (name : SymbolId) :
    namesWith builder.nameCount pairs name = builder'.nameCount name := by
  rw [LiveSeriesCatalog.nameCount, h.keys_perm.countP_eq, countP_cons, namesWith,
    countP_eq_ite h.distinct]
  simp only [h.row, h.rows_eq, decide_eq_true_eq]
  rfl

theorem Extends.valueCount (key : LabelValueKey) :
    valuesWith builder.valueCount pairs key = builder'.valueCount key := by
  rw [LiveSeriesCatalog.valueCount, h.keys_perm.countP_eq, countP_cons, valuesWith,
    countP_eq_ite (nodup_valueKeys h.distinct)]
  simp only [h.row, h.rows_eq, decide_eq_true_eq]
  rfl

theorem Extends.posted (key : PostingKey) :
    postingsWith builder.Posted series pairs key ↔ builder'.Posted key := by
  obtain ⟨name, value, other⟩ := key
  have hpair : (∃ pair ∈ pairs, (⟨name, value, other⟩ : PostingKey) = pair.posting series) ↔
      other = series ∧ (⟨name, value⟩ : InternedKeyValue) ∈ pairs := by
    constructor
    · rintro ⟨⟨key, value'⟩, hpair, heq⟩
      obtain ⟨rfl, rfl, rfl⟩ := heq
      exact ⟨rfl, hpair⟩
    · rintro ⟨rfl, hpair⟩
      exact ⟨_, hpair, rfl⟩
  rw [postingsWith, hpair]
  simp only [Posted, h.keys_perm.mem_iff, mem_cons, h.rows_eq]
  have hseries : builder.row series = pairs := by rw [← h.rows_eq, h.row]
  constructor
  · rintro (⟨hactive, hrow⟩ | ⟨rfl, hpairs⟩)
    · exact ⟨.inr hactive, hrow⟩
    · exact ⟨.inl rfl, hseries.symm ▸ hpairs⟩
  · rintro ⟨rfl | hactive, hrow⟩
    · exact .inr ⟨rfl, hseries ▸ hrow⟩
    · exact .inl ⟨hactive, hrow⟩

end

theorem Indexed.notPosted (hinactive : series ∉ builder.active.keys) (pair : InternedKeyValue) :
    ¬builder.Posted (pair.posting series) :=
  fun h => hinactive h.1

theorem validatedRow_gives (labels : CatalogLabels) (series : SeriesRef) :
    Gives (SeriesError H labels) (fun result =>
        labels.canonicalRows[series.get.toNat]? = some result.2 ∧
          (result.2.map InternedKeyValue.key).Nodup)
      (validatedRow H labels.toVersionedFlatInternedLabelSetSnapshot series) := by
  cases h : validatedRow H labels.toVersionedFlatInternedLabelSetSnapshot series with
  | ok result => exact validatedRow_pairs h
  | error error => exact .row series h

/-- What a step leaves: the same snapshot, indexed, with these active series. -/
structure Reached (builder builder' : LiveSeriesCatalog) (active : SeriesRef → Prop) : Prop where
  labels_eq : builder'.labels = builder.labels
  generation_eq : builder'.generation = builder.generation
  indexed : builder'.Indexed
  active_iff : ∀ series, series ∈ builder'.active.keys ↔ active series

theorem activate_gives (h : builder.Indexed) (hinactive : series ∉ builder.active.keys) :
    Gives (SeriesError H builder.labels) (fun builder' =>
        Reached builder builder' fun other => other = series ∨ other ∈ builder.active.keys)
      (builder.activate H series) := by
  have hnone : builder.active.get series = none := by
    rwa [PersistentMap.mem_keys, Bool.not_eq_true, Option.isSome_eq_false_iff,
      Option.isNone_iff_eq_none] at hinactive
  refine (gives_require fun hc => absurd (by rw [hnone]; rfl) hc).bind fun _ _ => ?_
  refine (gives_require fun hc => SeriesError.outside series (Nat.lt_of_not_le hc)).bind fun _ _ => ?_
  refine (validatedRow_gives builder.labels series).bind fun ⟨seriesId, pairs⟩ hpairs => ?_
  refine (CatalogMap.insert_gives _ .entriesOverflow).bind fun active hactive => ?_
  have hkeys : active.keys.Perm (series :: builder.active.keys) := by
    refine keys_perm hnone fun other => ?_
    rw [hactive other]
    split
    · rename_i heq
      simp [heq]
    · rename_i hne
      simp [hne]
  have hholds : ({ builder with active } : LiveSeriesCatalog).Holds builder.nameCount
      builder.Posted builder.valueCount := ⟨h.holds.names, h.holds.postings, h.holds.values⟩
  refine (activateLabels_gives _ hholds (nodup_of_keys hpairs.2)
    fun pair _ => Indexed.notPosted hinactive pair).post ?_
  rintro builder' ⟨hsame, hholds'⟩
  have hextends : Extends builder builder' series pairs :=
    ⟨hsame.labels_eq, hsame.active_eq ▸ hkeys, hpairs.1, hpairs.2⟩
  refine ⟨hsame.labels_eq, hsame.generation_eq, ⟨fun other hother => ?_, ?_⟩, fun other => ?_⟩
  · rw [hsame.labels_eq]
    rcases mem_cons.mp (hextends.keys_perm.mem_iff.mp hother) with rfl | hold
    · exact ⟨pairs, hpairs⟩
    · exact h.rows other hold
  · exact ⟨hholds'.names.congr hextends.nameCount,
      fun key => (hholds'.postings key).trans (hextends.posted key),
      hholds'.values.congr hextends.valueCount⟩
  · rw [hextends.keys_perm.mem_iff, mem_cons]

theorem retire_gives (h : builder.Indexed) (hactive : series ∈ builder.active.keys) :
    Gives (SeriesError H builder.labels) (fun builder' =>
        Reached builder builder' fun other => other ≠ series ∧ other ∈ builder.active.keys)
      (builder.retire H series) := by
  have hsome : (builder.active.get series).isSome := PersistentMap.mem_keys.mp hactive
  refine (gives_require fun hc => absurd hsome hc).bind fun _ _ => ?_
  refine (validatedRow_gives builder.labels series).bind fun ⟨seriesId, pairs⟩ hpairs => ?_
  refine (CatalogMap.take_gives hsome).bind fun active hget => ?_
  -- the builder with the series is the one without it and one series more
  let rest : LiveSeriesCatalog := { builder with active }
  have hnone : active.get series = none := by rw [hget series, if_pos rfl]
  have hkeys : builder.active.keys.Perm (series :: active.keys) := by
    refine keys_perm hnone fun other => ?_
    rw [hget other]
    split
    · rename_i heq
      simp [heq, hsome]
    · rename_i hne
      simp [hne]
  have hinactive : series ∉ rest.active.keys := by
    rw [PersistentMap.mem_keys, hnone]
    simp
  have hextends : Extends rest builder series pairs := ⟨rfl, hkeys, hpairs.1, hpairs.2⟩
  have hholds : rest.Holds (namesWith rest.nameCount pairs)
      (postingsWith rest.Posted series pairs) (valuesWith rest.valueCount pairs) :=
    ⟨h.holds.names.congr fun name => (hextends.nameCount name).symm,
      fun key => (h.holds.postings key).trans (hextends.posted key).symm,
      h.holds.values.congr fun key => (hextends.valueCount key).symm⟩
  refine (retireLabels_gives hholds (nodup_of_keys hpairs.2)
    fun pair _ => Indexed.notPosted hinactive pair).post ?_
  rintro builder' ⟨hsame, hholds'⟩
  have hrow : ∀ other, builder'.row other = rest.row other := by
    intro other
    rw [row, row, hsame.labels_eq]
  refine ⟨hsame.labels_eq, hsame.generation_eq, ⟨fun other hother => ?_, ?_⟩, fun other => ?_⟩
  · rw [hsame.active_eq] at hother
    rw [hsame.labels_eq]
    exact h.rows other (hkeys.mem_iff.mpr (mem_cons_of_mem _ hother))
  · refine ⟨hholds'.names.congr fun name => ?_, fun key => (hholds'.postings key).trans ?_,
      hholds'.values.congr fun key => ?_⟩
    · simp [nameCount, hsame.active_eq, hrow]
    · simp [Posted, hsame.active_eq, hrow]
    · simp [valueCount, hsame.active_eq, hrow]
  rw [hsame.active_eq, hkeys.mem_iff, mem_cons]
  constructor
  · intro hother
    exact ⟨fun heq => hinactive (heq ▸ hother), .inr hother⟩
  · rintro ⟨hne, heq | hother⟩
    · exact absurd heq hne
    · exact hother

end LiveSeriesCatalog

end Chronoxide
