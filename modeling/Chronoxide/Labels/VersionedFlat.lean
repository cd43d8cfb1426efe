import Chronoxide.Collections.HashIndex
import Chronoxide.Labels.OtlpLabelset
import Chronoxide.Program.Fallible

/-! The label store of the live path (`labels/normalizer.rs`, `labels/interners/versioned_flat.rs`).
It keeps two rows for a series: the labels as they came, cut to their size limits, which identify
the series, and the canonical PromQL labels. -/

namespace Chronoxide
open Fallible KeepLast Triple List

def maxLabelNameBytes : Nat := 1024

def maxLabelValueBytes : Nat := 2048

def boundaryUpTo (s : String) : Nat → Nat
  | 0 => 0
  | n + 1 => if (String.Pos.Raw.mk (n + 1)).isValid s then n + 1 else boundaryUpTo s n

def truncateUtf8ToBoundary (s : String) (maxBytes : Nat) : String :=
  if s.utf8ByteSize ≤ maxBytes then s
  else String.Pos.Raw.extract s 0 ⟨boundaryUpTo s maxBytes⟩

/-- The suffix `~s` and 16 digits take 18 bytes. -/
def truncateWithHash (siphash24 : List UInt8 → UInt64) (s : String) (maxBytes : Nat) : String :=
  if s.utf8ByteSize ≤ maxBytes then s
  else truncateUtf8ToBoundary s (maxBytes - 18) ++
    String.ofList ('~' :: 's' :: hex016 (siphash24 (asBytes s)))

abbrev SymbolId := Nat

structure InternedKeyValue where
  key : SymbolId
  value : SymbolId
  deriving DecidableEq, Repr

structure LabelHashes where
  siphash24 : List UInt8 → UInt64
  xxhash64 : List UInt8 → UInt64
  symbolHash : String → UInt64
  labelsetHash : List InternedKeyValue → UInt64

inductive VersionedFlatLabelStoreError
  | capacityExceeded (region field : String) (value maximum : Nat)
  | allocationFailed (region : String) (requested : Nat)
  | seriesRefOutOfRange (seriesRef revision : Nat)
  | symbolIdOutOfRange (symbolId symbolCount : Nat)
  deriving DecidableEq, Repr

def VersionedFlatLabelStoreError.display : VersionedFlatLabelStoreError → String
  | capacityExceeded region field value maximum =>
    s!"{region} {field}={value} exceeds the representable or configured maximum {maximum}"
  | allocationFailed region requested => s!"{region} could not reserve {requested} elements"
  | seriesRefOutOfRange seriesRef revision =>
    s!"series ref {seriesRef} is outside snapshot revision {revision}"
  | symbolIdOutOfRange symbolId symbolCount =>
    s!"symbol id {symbolId} is outside snapshot symbol count {symbolCount}"

structure VersionedSymbolTable where
  symbols : List String
  index : HashIndex
  maxSymbols : Nat

/-- What an allocation or a page can fail with: while scratch space is reserved, while a symbol
that is new is stored, and while a row is. -/
structure InternFaults where
  scratch : Option VersionedFlatLabelStoreError
  symbol : String → Option VersionedFlatLabelStoreError
  row : Option VersionedFlatLabelStoreError

section
variable (H : LabelHashes) (faults : InternFaults)

def normalizeLabelKey (key : String) : String := truncateWithHash H.siphash24 key maxLabelNameBytes

def normalizeLabelValue (value : String) : String :=
  truncateWithHash H.siphash24 value maxLabelValueBytes

variable (table : VersionedSymbolTable)

def VersionedSymbolTable.lookup (symbol : String) : Option SymbolId :=
  table.index.find (table.symbols[·]?) symbol (H.symbolHash symbol)

def VersionedSymbolTable.push (symbol : String) : VersionedSymbolTable :=
  { table with
    symbols := table.symbols ++ [symbol]
    index := table.index.insert (H.symbolHash symbol) table.symbols.length }

abbrev SymbolProgram := Program VersionedSymbolTable VersionedFlatLabelStoreError

def internSymbol (symbol : String) : SymbolProgram SymbolId := do
  let table ← get
  match table.lookup H symbol with
  | some id => return id
  | none =>
    let symbolCount := table.symbols.length
    if symbolCount ≥ table.maxSymbols then
      throw (.capacityExceeded "live symbols" "symbol_count" (symbolCount + 1) table.maxSymbols)
    else if symbolCount > counterMax 32 then
      throw (.capacityExceeded "live symbols" "symbol_id" symbolCount (counterMax 32))
    else
      match faults.symbol symbol with
      | some error => throw error
      | none => do
        modify fun table => table.push H symbol
        return symbolCount

/-- The identity pair of a label and its PromQL projection. -/
def pushRawAndCanonical (rawKey rawValue : String) :
    SymbolProgram (InternedKeyValue × InternedKeyValue) := do
  let key := normalizeLabelKey H rawKey
  let value := normalizeLabelValue H rawValue
  let rawKeyId ← internSymbol H faults key
  let rawValueId ← internSymbol H faults value
  if key = metricNameLabel then do
    let canonicalValueId ← internSymbol H faults (normalizeMetricName H.xxhash64 value)
    return (⟨rawKeyId, rawValueId⟩, ⟨rawKeyId, canonicalValueId⟩)
  else do
    let canonicalKeyId ← internSymbol H faults (normalizeLabelName H.xxhash64 key)
    return (⟨rawKeyId, rawValueId⟩, ⟨canonicalKeyId, rawValueId⟩)

end

-- An id that was interned is always found.
def resolve (symbols : List String) (id : SymbolId) : String := symbols[id]?.getD ""

def InternedKeyValue.resolve (symbols : List String) (pair : InternedKeyValue) : String × String :=
  (Chronoxide.resolve symbols pair.key, Chronoxide.resolve symbols pair.value)

/-- Sorted by name, and compacted in place so that the last pair of a name stays. -/
def canonicalizeScratch (symbols : List String) (scratch : List InternedKeyValue) :
    List InternedKeyValue :=
  KeepLast.compact InternedKeyValue.key
    (scratch.mergeSort fun left right => resolve symbols left.key ≤ resolve symbols right.key)

structure VersionedFlatInternedLabelSetStore where
  symbols : VersionedSymbolTable
  rows : List (List InternedKeyValue)
  canonicalRows : List (List InternedKeyValue)
  index : HashIndex
  maxSeries : Nat

namespace VersionedFlatInternedLabelSetStore

def empty (maxSymbols maxSeries : Nat) : VersionedFlatInternedLabelSetStore :=
  ⟨⟨[], .empty, maxSymbols⟩, [], [], .empty, maxSeries⟩

def putSymbols (symbols : VersionedSymbolTable) (store : VersionedFlatInternedLabelSetStore) :
    VersionedFlatInternedLabelSetStore := { store with symbols }

section
variable (H : LabelHashes) (faults : InternFaults)

def push (store : VersionedFlatInternedLabelSetStore) (encoded canonical : List InternedKeyValue) :
    VersionedFlatInternedLabelSetStore :=
  { store with
    rows := store.rows ++ [encoded]
    canonicalRows := store.canonicalRows ++ [canonical]
    index := store.index.insert (H.labelsetHash encoded) store.rows.length }

abbrev StoreProgram := Program VersionedFlatInternedLabelSetStore VersionedFlatLabelStoreError

variable (encoded canonical : List InternedKeyValue)

def insertEncoded : StoreProgram SeriesRef := do
  let store ← get
  let seriesCount := store.rows.length
  if seriesCount ≥ store.maxSeries then
    throw (.capacityExceeded "live label rows" "series_count" (seriesCount + 1) store.maxSeries)
  else if seriesCount > counterMax 32 then
    throw (.capacityExceeded "live label rows" "series_ref" seriesCount (counterMax 32))
  else
    match faults.row with
    | some error => throw error
    | none => do
      modify fun store => store.push H encoded canonical
      return ⟨UInt32.ofNat seriesCount⟩

def finishEncoded : StoreProgram SeriesRef := do
  let store ← get
  match store.index.find (store.rows[·]?) encoded (H.labelsetHash encoded) with
  | some existing => return ⟨UInt32.ofNat existing⟩
  | none => insertEncoded H faults encoded canonical

variable (labels : List (String × String))

/-- A failure leaves the symbols that were interned before it, and no row. -/
def internLabels : StoreProgram SeriesRef := do
  match faults.scratch with
  | some error => throw error
  | none => do
    let pushed ← zoom symbols putSymbols
      (labels.mapM fun label => pushRawAndCanonical H faults label.1 label.2)
    let store ← get
    finishEncoded H faults (pushed.map Prod.fst)
      (canonicalizeScratch store.symbols.symbols (pushed.map Prod.snd))

def internIter : StoreProgram SeriesRef :=
  internLabels H faults labels

def internPreparedOtlp (labels : BuiltLabelSet) : StoreProgram SeriesRef :=
  internLabels H faults labels.labels

inductive Reachable : VersionedFlatInternedLabelSetStore → Prop
  | empty (maxSymbols maxSeries : Nat) : Reachable (empty maxSymbols maxSeries)
  | intern {store : VersionedFlatInternedLabelSetStore} (faults : InternFaults)
      (labels : List (String × String)) (h : Reachable store) :
      Reachable ((internLabels H faults labels).exec store).2

end

/-- Labels that come in the order of their canonical names need no sorting. -/
theorem internLabels_sorted {H : LabelHashes} {faults : InternFaults}
    {labels : List (String × String)} {store store' : VersionedFlatInternedLabelSetStore}
    {pushed : List (InternedKeyValue × InternedKeyValue)} (hscratch : faults.scratch = none)
    (hpushed : (zoom symbols putSymbols (labels.mapM fun label =>
      pushRawAndCanonical H faults label.1 label.2)).exec store = (.ok pushed, store'))
    (hsorted : (pushed.map Prod.snd).Pairwise fun left right =>
      resolve store'.symbols.symbols left.key ≤ resolve store'.symbols.symbols right.key) :
    (internLabels H faults labels).exec store =
      (finishEncoded H faults (pushed.map Prod.fst)
        (KeepLast.compact InternedKeyValue.key (pushed.map Prod.snd))).exec store' := by
  have hscan : canonicalizeScratch store'.symbols.symbols (pushed.map Prod.snd) =
      KeepLast.compact InternedKeyValue.key (pushed.map Prod.snd) := by
    rw [canonicalizeScratch, mergeSort_of_pairwise (by simpa using hsorted)]
  unfold internLabels
  rw [hscratch]
  refine (Program.exec_bind_ok hpushed).trans ?_
  rw [Program.exec_bind_ok (Program.exec_get store'), hscan]

end VersionedFlatInternedLabelSetStore

structure VersionedFlatInternedLabelSetSnapshot where
  symbols : List String
  rows : List (List InternedKeyValue)
  canonicalRows : List (List InternedKeyValue)

def VersionedFlatInternedLabelSetStore.snapshot (store : VersionedFlatInternedLabelSetStore) :
    VersionedFlatInternedLabelSetSnapshot :=
  ⟨store.symbols.symbols, store.rows, store.canonicalRows⟩

namespace VersionedFlatInternedLabelSetSnapshot

variable (snapshot : VersionedFlatInternedLabelSetSnapshot)

def revision : Nat := snapshot.rows.length

def tryResolve (id : SymbolId) : Except VersionedFlatLabelStoreError String :=
  match snapshot.symbols[id]? with
  | some symbol => .ok symbol
  | none => .error (.symbolIdOutOfRange id snapshot.symbols.length)

def tryCanonicalLabelsetSymbolIds (series : SeriesRef) :
    Except VersionedFlatLabelStoreError (List InternedKeyValue) :=
  match snapshot.canonicalRows[series.get.toNat]? with
  | some row => .ok row
  | none => .error (.seriesRefOutOfRange series.get.toNat snapshot.revision)

end VersionedFlatInternedLabelSetSnapshot

structure VersionedSymbolTable.Valid (H : LabelHashes) (table : VersionedSymbolTable) : Prop where
  nodup : table.symbols.Nodup
  covers : table.index.Covers H.symbolHash table.symbols
  bounded : table.symbols.length ≤ counterMax 32 + 1

def Stable (P : List String → Prop) : Prop := ∀ symbols symbols', symbols <+: symbols' →
  P symbols → P symbols'

theorem Stable.and {P Q : List String → Prop} (hP : Stable P) (hQ : Stable Q) :
    Stable fun symbols => P symbols ∧ Q symbols :=
  fun _ _ hgrown h => ⟨hP _ _ hgrown h.1, hQ _ _ hgrown h.2⟩

theorem stable_getElem? (id : SymbolId) (symbol : String) :
    Stable fun symbols => symbols[id]? = some symbol := by
  rintro symbols _ ⟨more, rfl⟩ h
  rw [List.getElem?_append_left (List.getElem?_eq_some_iff.mp h).1]
  exact h

variable {labels : List (String × String)} {symbols : List String} {label : String × String}

variable {H : LabelHashes}

section
variable {H : LabelHashes} {faults : InternFaults} {P : List String → Prop}

theorem internSymbol_triple (hP : Stable P) (symbol : String) :
    Triple (fun table => table.Valid H ∧ P table.symbols) (internSymbol H faults symbol)
      (fun id table => table.Valid H ∧ P table.symbols ∧ table.symbols[id]? = some symbol)
      (fun _ table => table.Valid H ∧ P table.symbols) := by
  refine read fun table hpre => ?_
  obtain ⟨hvalid, hholds⟩ := hpre
  cases hlookup : table.lookup H symbol with
  | some id =>
    rintro _ rfl
    exact ⟨hvalid, hholds, (hvalid.covers.find_eq_some_iff hvalid.nodup ..).mp hlookup⟩
  | none =>
    refine ite (fun _ => ?_) fun _ => ite (fun _ => ?_) fun hids => ?_
    · rintro _ rfl
      exact ⟨hvalid, hholds⟩
    · rintro _ rfl
      exact ⟨hvalid, hholds⟩
    cases faults.symbol symbol with
    | some error =>
      rintro _ rfl
      exact ⟨hvalid, hholds⟩
    | none =>
      have hnew : symbol ∉ table.symbols := (hvalid.covers.find_eq_none_iff symbol).mp hlookup
      have hnodup := hvalid.nodup.concat hnew
      rw [concat_eq_append] at hnodup
      have hbounded : (table.symbols ++ [symbol]).length ≤ counterMax 32 + 1 := by
        rw [length_append, length_singleton]
        omega
      have hpushed : (table.push H symbol).Valid H :=
        ⟨hnodup, hvalid.covers.insert symbol, hbounded⟩
      rintro _ rfl
      exact ⟨hpushed, hP _ _ (prefix_append ..) hholds, getElem?_concat_length ..⟩

variable (H)

theorem normalizeLabelKey_cases (key : String) : normalizeLabelKey H key = key ∨
      maxLabelNameBytes < key.utf8ByteSize ∧ 18 ≤ (normalizeLabelKey H key).toList.length := by
  unfold normalizeLabelKey truncateWithHash
  split
  · exact .inl rfl
  · rename_i hlong
    refine .inr ⟨not_le.mp hlong, ?_⟩
    simp [hex016]

theorem utf8ByteSize_le_of_collapses {rules : NameRules} {key : String}
    (h : rules.collapses key) : key.utf8ByteSize ≤ 4 ∧ key.toList.length ≤ 1 := by
  have hkey := String.ofList_toList (s := key)
  unfold NameRules.collapses at h
  split at h
  · rename_i hnil
    rw [hnil] at hkey
    rw [← hkey]
    exact ⟨Nat.zero_le _, by simp⟩
  · rename_i ch hone
    rw [hone] at hkey
    rw [← hkey, ← String.singleton_eq_ofList, String.utf8ByteSize_singleton]
    exact ⟨ch.utf8Size_le_four, by simp⟩
  · cases h

theorem collapses_normalizeLabelKey (key : String) :
    labelNameRules.collapses (normalizeLabelKey H key) ↔ labelNameRules.collapses key := by
  rcases normalizeLabelKey_cases H key with heq | ⟨hlong, hlength⟩
  · rw [heq]
  refine iff_of_false (fun h => ?_) fun h => ?_
  · have := (utf8ByteSize_le_of_collapses h).2
    omega
  · have := (utf8ByteSize_le_of_collapses h).1
    exact absurd hlong (by unfold maxLabelNameBytes; omega)

theorem normalizeLabelKey_eq_metricNameLabel_iff (key : String) :
    normalizeLabelKey H key = metricNameLabel ↔ key = metricNameLabel := by
  rcases normalizeLabelKey_cases H key with heq | ⟨hlong, hlength⟩
  · rw [heq]
  refine iff_of_false (fun h => ?_) fun h => ?_
  · rw [h] at hlength
    exact absurd hlength (by decide)
  · rw [h] at hlong
    exact absurd hlong (by decide)

variable {H}

def InternedKeyValue.Resolves (symbols : List String) (pair : InternedKeyValue)
    (label : String × String) : Prop :=
  symbols[pair.key]? = some label.1 ∧ symbols[pair.value]? = some label.2

theorem InternedKeyValue.Resolves.resolve_eq {pair : InternedKeyValue}
    (h : pair.Resolves symbols label) : pair.resolve symbols = label :=
  Prod.ext (by simp [InternedKeyValue.resolve, Chronoxide.resolve, h.1])
    (by simp [InternedKeyValue.resolve, Chronoxide.resolve, h.2])

section
variable (H : LabelHashes)

def storedLabel (label : String × String) : String × String :=
  (normalizeLabelKey H label.1, normalizeLabelValue H label.2)

def canonicalLabel (label : String × String) : String × String :=
  if label.1 = metricNameLabel then (label.1, normalizeMetricName H.xxhash64 label.2)
  else (normalizeLabelName H.xxhash64 label.1, label.2)

/-- The canonical row of stored labels: by name, the last one of each name. -/
def canonicalRow (labels : List (String × String)) : List (String × String) :=
  KeepLast.keepLast Prod.fst
    ((labels.map (canonicalLabel H)).mergeSort fun left right => left.1 ≤ right.1)

end

theorem canonicalRow_increasing (H : LabelHashes) (labels : List (String × String)) :
    KeepLast.Increasing Prod.fst (canonicalRow H labels) :=
  (keepLast_mergeSort_key _).1

theorem last?_canonicalRow (H : LabelHashes) (labels : List (String × String)) (name : String) :
    last? Prod.fst name (canonicalRow H labels) =
      last? Prod.fst name (labels.map (canonicalLabel H)) :=
  (keepLast_mergeSort_key _).2 name

theorem mem_of_mem_canonicalRow (h : label ∈ canonicalRow H labels) :
    ∃ stored ∈ labels, canonicalLabel H stored = label :=
  mem_map.mp (mem_mergeSort.mp (mem_of_mem_keepLast h))

theorem exists_mem_canonicalRow (H : LabelHashes) {stored : String × String} (h : stored ∈ labels) :
    ∃ label ∈ canonicalRow H labels, label.1 = (canonicalLabel H stored).1 := by
  have hmem := mem_map_of_mem (f := canonicalLabel H) h
  cases hlast : last? Prod.fst (canonicalLabel H stored).1
      (labels.map (canonicalLabel H)) with
  | none =>
    exact absurd rfl (ne_of_last?_eq_none hlast _ hmem)
  | some label =>
    rw [← last?_canonicalRow] at hlast
    exact ⟨label, last?_mem hlast⟩

theorem pushRawAndCanonical_triple (hP : Stable P) (label : String × String) :
    Triple (fun table => table.Valid H ∧ P table.symbols)
      (pushRawAndCanonical H faults label.1 label.2)
      (fun pair table => table.Valid H ∧ P table.symbols ∧
        pair.1.Resolves table.symbols (storedLabel H label) ∧
        pair.2.Resolves table.symbols (canonicalLabel H (storedLabel H label)))
      (fun _ table => table.Valid H ∧ P table.symbols) := by
  refine (internSymbol_triple hP _).seq fun keyId => ?_
  have hkey := hP.and (stable_getElem? keyId (normalizeLabelKey H label.1))
  refine ((internSymbol_triple hkey _).mono_error fun _ _ h => ⟨h.1, h.2.1⟩).seq fun valueId => ?_
  have hvalue := hkey.and (stable_getElem? valueId (normalizeLabelValue H label.2))
  refine ite (fun hmetric => ?_) fun hlabel => ?_
  · refine ((internSymbol_triple hvalue _).conseq (fun _ h => ⟨h.1, h.2.1, h.2.2⟩)
      (fun _ _ h => h) fun _ _ h => ⟨h.1, h.2.1.1⟩).seq fun canonicalId => ?_
    rintro table ⟨hvalid, ⟨⟨hholds, hkeyId⟩, hvalueId⟩, hcanonicalId⟩
    refine ⟨hvalid, hholds, ⟨hkeyId, hvalueId⟩, ?_⟩
    have hprojected : canonicalLabel H (storedLabel H label) = (normalizeLabelKey H label.1,
        normalizeMetricName H.xxhash64 (normalizeLabelValue H label.2)) := if_pos hmetric
    rw [hprojected]
    exact ⟨hkeyId, hcanonicalId⟩
  refine ((internSymbol_triple hvalue _).conseq (fun _ h => ⟨h.1, h.2.1, h.2.2⟩)
    (fun _ _ h => h) fun _ _ h => ⟨h.1, h.2.1.1⟩).seq fun canonicalId => ?_
  rintro table ⟨hvalid, ⟨⟨hholds, hkeyId⟩, hvalueId⟩, hcanonicalId⟩
  refine ⟨hvalid, hholds, ⟨hkeyId, hvalueId⟩, ?_⟩
  have hprojected : canonicalLabel H (storedLabel H label) =
      (normalizeLabelName H.xxhash64 (normalizeLabelKey H label.1),
        normalizeLabelValue H label.2) := if_neg hlabel
  rw [hprojected]
  exact ⟨hcanonicalId, hvalueId⟩

end

abbrev RowOf (symbols : List String) (row : List InternedKeyValue)
    (labels : List (String × String)) : Prop :=
  Forall₂ (InternedKeyValue.Resolves symbols) row labels

theorem stable_rowOf (row : List InternedKeyValue) (labels : List (String × String)) :
    Stable fun symbols => RowOf symbols row labels :=
  fun _ _ hgrown h => h.imp fun _ _ =>
    Stable.and (stable_getElem? _ _) (stable_getElem? _ _) _ _ hgrown

theorem rowOf_iff {row : List InternedKeyValue} :
    RowOf symbols row labels ↔ (∀ pair ∈ row, pair.Resolves symbols (pair.resolve symbols)) ∧
      row.map (InternedKeyValue.resolve symbols) = labels := by
  constructor
  · intro h
    induction h with
    | nil => exact ⟨by simp, rfl⟩
    | cons hpair _ ih =>
      refine ⟨forall_mem_cons.mpr ⟨?_, ih.1⟩, ?_⟩
      · rw [hpair.resolve_eq]
        exact hpair
      · rw [map_cons, hpair.resolve_eq, ih.2]
  · rintro ⟨hrow, rfl⟩
    exact forall₂_map_right_iff.mpr (forall₂_same.mpr hrow)

theorem canonicalizeScratch_rowOf (hnodup : symbols.Nodup) {scratch : List InternedKeyValue}
    (h : RowOf symbols scratch (labels.map (canonicalLabel H))) :
    RowOf symbols (canonicalizeScratch symbols scratch) (canonicalRow H labels) := by
  obtain ⟨hscratch, hlabels⟩ := rowOf_iff.mp h
  have hmem : ∀ pair ∈ scratch.mergeSort fun left right =>
      resolve symbols left.key ≤ resolve symbols right.key, pair ∈ scratch :=
    fun pair hpair => List.mem_mergeSort.mp hpair
  rw [rowOf_iff, canonicalizeScratch, compact_eq_keepLast]
  refine ⟨fun pair hpair => hscratch pair (hmem pair (mem_of_mem_keepLast hpair)), ?_⟩
  -- ids of equal symbols are equal, so both compactions drop the same pairs
  have hkey : ∀ a ∈ scratch, ∀ b ∈ scratch,
      ((a.resolve symbols).1 = (b.resolve symbols).1 ↔ a.key = b.key) := by
    intro a ha b hb
    refine ⟨fun heq => ?_, fun heq => congrArg (resolve symbols) heq⟩
    obtain ⟨hlt, heqa⟩ := List.getElem?_eq_some_iff.mp (hscratch a ha).1
    obtain ⟨hlt', heqb⟩ := List.getElem?_eq_some_iff.mp (hscratch b hb).1
    exact (List.Nodup.getElem_inj_iff hnodup).mp (heqa.trans (heq.trans heqb.symm))
  have hmap := map_keepLast _ fun a ha b hb => hkey a (hmem a ha) b (hmem b hb)
  refine hmap.trans (congrArg (keepLast Prod.fst) ?_)
  rw [← hlabels]
  exact List.map_mergeSort fun _ _ _ _ => rfl

def PushedLabels (H : LabelHashes) (symbols : List String) (labels : List (String × String))
    (pushed : List (InternedKeyValue × InternedKeyValue)) : Prop :=
  RowOf symbols (pushed.map Prod.fst) (labels.map (storedLabel H)) ∧
    RowOf symbols (pushed.map Prod.snd) ((labels.map (storedLabel H)).map (canonicalLabel H))

theorem stable_pushedLabels (H : LabelHashes) (labels : List (String × String))
    (pushed : List (InternedKeyValue × InternedKeyValue)) :
    Stable fun symbols => PushedLabels H symbols labels pushed :=
  Stable.and (stable_rowOf _ _) (stable_rowOf _ _)

theorem PushedLabels.concat {pushed : List (InternedKeyValue × InternedKeyValue)}
    (h : PushedLabels H symbols labels pushed) {pair : InternedKeyValue × InternedKeyValue}
    (hraw : pair.1.Resolves symbols (storedLabel H label))
    (hcanonical : pair.2.Resolves symbols (canonicalLabel H (storedLabel H label))) :
    PushedLabels H symbols (labels ++ [label]) (pushed ++ [pair]) := by
  unfold PushedLabels
  rw [map_append, map_append, map_append, map_append]
  exact ⟨rel_append h.1 (.cons hraw .nil), rel_append h.2 (.cons hcanonical .nil)⟩

theorem pushLabels_triple {faults : InternFaults} (symbols : List String)
    (labels : List (String × String)) :
    Triple (fun table => table.Valid H ∧ symbols <+: table.symbols)
      (labels.mapM fun label => pushRawAndCanonical H faults label.1 label.2)
      (fun pushed table => table.Valid H ∧ symbols <+: table.symbols ∧
        PushedLabels H table.symbols labels pushed)
      (fun _ table => table.Valid H ∧ symbols <+: table.symbols) := by
  have hgrown : Stable fun symbols' => symbols <+: symbols' :=
    fun _ _ hgrown h => h.trans hgrown
  refine (mapM (I := fun labels pushed (table : VersionedSymbolTable) => table.Valid H ∧
    symbols <+: table.symbols ∧ PushedLabels H table.symbols labels pushed)
    (fun label _ labels pushed => ?_) [] []).pre fun table h => ⟨h.1, h.2, .nil, .nil⟩
  refine (pushRawAndCanonical_triple (hgrown.and (stable_pushedLabels H labels pushed))
    label).conseq (fun _ h => h) ?_ fun _ _ h => ⟨h.1, h.2.1⟩
  rintro pair table ⟨hvalid, ⟨hgrown, hpushed⟩, hraw, hcanonical⟩
  exact ⟨hvalid, hgrown, hpushed.concat hraw hcanonical⟩

namespace VersionedFlatInternedLabelSetStore

/-- Every row has a canonical row of the same labels. -/
structure Valid (H : LabelHashes) (store : VersionedFlatInternedLabelSetStore) : Prop where
  symbols : store.symbols.Valid H
  nodup : store.rows.Nodup
  covers : store.index.Covers H.labelsetHash store.rows
  bounded : store.rows.length ≤ counterMax 32 + 1
  length_eq : store.canonicalRows.length = store.rows.length
  rows : ∀ (i : Nat) row canonical, store.rows[i]? = some row →
    store.canonicalRows[i]? = some canonical → ∃ labels, RowOf store.symbols.symbols row labels ∧
      RowOf store.symbols.symbols canonical (canonicalRow H labels)

def Holds (store : VersionedFlatInternedLabelSetStore) (series : SeriesRef)
    (labels : List (String × String)) : Prop :=
  ∃ row, store.rows[series.get.toNat]? = some row ∧ RowOf store.symbols.symbols row labels

section
variable {H : LabelHashes} {faults : InternFaults}

theorem valid_empty (maxSymbols maxSeries : Nat) : (empty maxSymbols maxSeries).Valid H where
  symbols := ⟨nodup_nil, HashIndex.covers_empty _, Nat.zero_le _⟩
  nodup := nodup_nil
  covers := HashIndex.covers_empty _
  bounded := Nat.zero_le _
  length_eq := rfl
  rows i row canonical hrow := by cases hrow

variable {store : VersionedFlatInternedLabelSetStore}

theorem Valid.putSymbols (h : store.Valid H)
    {symbols : VersionedSymbolTable} (hsymbols : symbols.Valid H)
    (hgrown : store.symbols.symbols <+: symbols.symbols) : (putSymbols symbols store).Valid H where
  symbols := hsymbols
  nodup := h.nodup
  covers := h.covers
  bounded := h.bounded
  length_eq := h.length_eq
  rows i row canonical hrow hcanonical := by
    obtain ⟨labels, hlabels, hprojected⟩ := h.rows i row canonical hrow hcanonical
    exact ⟨labels, stable_rowOf _ _ _ _ hgrown hlabels, stable_rowOf _ _ _ _ hgrown hprojected⟩

theorem Valid.push (h : store.Valid H)
    {encoded canonical : List InternedKeyValue} (hnew : encoded ∉ store.rows)
    (hroom : store.rows.length ≤ counterMax 32)
    (hencoded : RowOf store.symbols.symbols encoded labels)
    (hcanonical : RowOf store.symbols.symbols canonical (canonicalRow H labels)) :
    (store.push H encoded canonical).Valid H where
  symbols := h.symbols
  nodup := by
    have hnodup := h.nodup.concat hnew
    rwa [concat_eq_append] at hnodup
  covers := h.covers.insert encoded
  bounded := by
    rw [VersionedFlatInternedLabelSetStore.push, length_append]
    exact Nat.succ_le_succ hroom
  length_eq := by
    simp [VersionedFlatInternedLabelSetStore.push, h.length_eq]
  rows i row projected hrow hprojected := by
    simp only [VersionedFlatInternedLabelSetStore.push] at hrow hprojected
    rcases Nat.lt_or_ge i store.rows.length with hlt | hge
    · rw [getElem?_append_left hlt] at hrow
      rw [getElem?_append_left (h.length_eq ▸ hlt)] at hprojected
      exact h.rows i row projected hrow hprojected
    rw [getElem?_append_right hge, getElem?_singleton] at hrow
    rw [getElem?_append_right (h.length_eq ▸ hge), h.length_eq, getElem?_singleton] at hprojected
    split at hrow
    · rename_i hi
      rw [if_pos hi] at hprojected
      cases hrow
      cases hprojected
      exact ⟨labels, hencoded, hcanonical⟩
    · cases hrow

theorem toNat_ofNat_of_lt_rows (h : store.Valid H) {i : Nat} {row : List InternedKeyValue}
    (hrow : store.rows[i]? = some row) : (UInt32.ofNat i).toNat = i := by
  have hlt := (List.getElem?_eq_some_iff.mp hrow).1
  have hbounded := h.bounded
  apply UInt32.toNat_ofNat_of_lt'
  exact lt_of_lt_of_le hlt hbounded

theorem finishEncoded_triple {encoded canonical : List InternedKeyValue} :
    Triple (fun store => store.Valid H ∧ RowOf store.symbols.symbols encoded labels ∧
        RowOf store.symbols.symbols canonical (canonicalRow H labels))
      (finishEncoded H faults encoded canonical)
      (fun series store => store.Valid H ∧ store.Holds series labels)
      (fun _ store => store.Valid H) := by
  refine read fun store hpre => ?_
  obtain ⟨hvalid, hencoded, hcanonical⟩ := hpre
  cases hfind : store.index.find (store.rows[·]?) encoded (H.labelsetHash encoded) with
  | some existing =>
    rintro _ rfl
    have hrow := (hvalid.covers.find_eq_some_iff hvalid.nodup ..).mp hfind
    refine ⟨hvalid, encoded, ?_, hencoded⟩
    rw [toNat_ofNat_of_lt_rows hvalid hrow]
    exact hrow
  | none =>
    have hnew := (hvalid.covers.find_eq_none_iff encoded).mp hfind
    refine read fun store' hstore => ?_
    rw [hstore]
    refine ite (fun _ => ?_) fun _ => ite (fun _ => ?_) fun hroom => ?_
    · rintro _ rfl
      exact hvalid
    · rintro _ rfl
      exact hvalid
    cases faults.row with
    | some error =>
      rintro _ rfl
      exact hvalid
    | none =>
      have hpushed := hvalid.push hnew (not_lt.mp hroom) hencoded hcanonical
      have hrow : (store.push H encoded canonical).rows[store.rows.length]? = some encoded :=
        getElem?_concat_length ..
      rintro _ rfl
      refine ⟨hpushed, encoded, ?_, hencoded⟩
      rw [toNat_ofNat_of_lt_rows hpushed hrow]
      exact hrow

theorem internLabels_triple (labels : List (String × String)) :
    Triple (Valid H) (internLabels H faults labels)
      (fun series store => store.Valid H ∧ store.Holds series (labels.map (storedLabel H)))
      (fun _ store => store.Valid H) := by
  unfold internLabels
  cases faults.scratch with
  | some error => exact fun store hvalid => hvalid
  | none =>
    refine seq (Q := fun pushed store => store.Valid H ∧
      PushedLabels H store.symbols.symbols labels pushed) (zoom fun store hvalid => ?_)
      fun pushed => ?_
    · refine (pushLabels_triple store.symbols.symbols labels).conseq ?_ ?_ ?_
      · rintro _ rfl
        exact ⟨hvalid.symbols, prefix_rfl⟩
      · rintro pushed table ⟨htable, hgrown, hlabels⟩
        exact ⟨hvalid.putSymbols htable hgrown, hlabels⟩
      · rintro _ table ⟨htable, hgrown⟩
        exact hvalid.putSymbols htable hgrown
    · refine read fun store hpre => ?_
      obtain ⟨hvalid, hraw, hprojected⟩ := hpre
      refine finishEncoded_triple.pre ?_
      rintro _ rfl
      exact ⟨hvalid, hraw, canonicalizeScratch_rowOf hvalid.symbols.nodup hprojected⟩

theorem Valid.exists_canonicalRow (h : store.Valid H)
    {series : SeriesRef} (hlabels : store.Holds series labels) :
    ∃ canonical, store.canonicalRows[series.get.toNat]? = some canonical ∧
      RowOf store.symbols.symbols canonical (canonicalRow H labels) := by
  obtain ⟨row, hrow, hlabels⟩ := hlabels
  have hlt := (List.getElem?_eq_some_iff.mp hrow).1
  rw [← h.length_eq] at hlt
  have hcanonical := List.getElem?_eq_getElem hlt
  obtain ⟨labels', hlabels', hprojected⟩ := h.rows _ row _ hrow hcanonical
  rw [← (rowOf_iff.mp hlabels).2, (rowOf_iff.mp hlabels').2]
  exact ⟨_, hcanonical, hprojected⟩

theorem Reachable.valid (h : Reachable H store) : store.Valid H := by
  induction h with
  | empty maxSymbols maxSeries => exact valid_empty maxSymbols maxSeries
  | @intern store faults labels _ ih =>
    have hpost := @internLabels_triple H faults labels store ih
    revert hpost
    rcases (internLabels H faults labels).exec store with ⟨error | series, store'⟩
    · exact id
    · exact And.left

end

end VersionedFlatInternedLabelSetStore

end Chronoxide
