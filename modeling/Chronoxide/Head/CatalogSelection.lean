import Chronoxide.Collections.AvlRange
import Chronoxide.Head.CatalogCut
import Chronoxide.Query.Selection

/-! Selection of series through the live catalog (`LiveSeriesCatalog::matching_series` of
`head/catalog.rs`). Names and values are looked up among the active ones, and a posting is cut to the
series that are present in the time range of the query. -/

namespace Chronoxide
open Codec Fallible Faults AvlMap SortedSet Returns List

def catalogRangeErrors : RangeErrors IoError where
  reversed := invalidData "live catalog map range is reversed"
  traversalHeight := invalidData "live catalog range traversal exceeds validated map height"
  underflow := invalidData "live catalog range traversal stack underflow"

section Maps
variable {κ ν : Type} [LinearOrder κ]

/-- Every map that insertions and removals make holds what they should leave. A range of a catalog
map is visited as a whole unless all keys of the map are below it. -/
theorem maps_hold_contents :
    (∀ (C : Checks IoError) (hbound : 0 < C.entryBound),
      C = catalogMapChecks ∨ C = sampleMapChecks →
      ∀ (m : PersistentMap C κ ν) (contents : κ → Option ν),
        PersistentMap.Reaches hbound m contents → m.Holds contents) ∧
    ∀ (hbound : 0 < catalogMapChecks.entryBound) (m : CatalogMap κ ν) (contents : κ → Option ν),
      PersistentMap.Reaches hbound m contents → ∀ lower upper,
        (m.visitRange catalogRangeErrors lower upper =
            .ok (m.toList.filter fun e => lower ≤ e.1 ∧ e.1 ≤ upper) ↔
          (∀ key, contents key = none) ∨ ∃ key, lower ≤ key ∧ (contents key).isSome) := by
  refine ⟨fun C hbound _ m contents h => h.holds, ?_⟩
  intro hbound m contents h lower upper
  have hholds := h.holds
  rw [m.visitRange_ok_iff]
  constructor
  · intro hreach
    by_cases hnil : m.toList = []
    · refine .inl fun key => Option.eq_none_iff_forall_ne_some.mpr fun value hvalue => ?_
      have hmem := (hholds.mem_iff key value).mpr hvalue
      rw [hnil] at hmem
      cases hmem
    · obtain ⟨e, he, hlower⟩ := hreach hnil
      exact .inr ⟨e.1, hlower, Option.isSome_of_mem ((hholds.mem_iff e.1 e.2).mp he)⟩
  rintro (hnone | ⟨key, hlower, hsome⟩) hne
  · obtain ⟨e, he⟩ := exists_mem_of_ne_nil _ hne
    rw [hholds.mem_iff e.1 e.2, hnone] at he
    cases he
  · obtain ⟨value, hvalue⟩ := Option.isSome_iff_exists.mp hsome
    exact ⟨(key, value), (hholds.mem_iff key value).mpr hvalue, hlower⟩

end Maps

/-- With every key below the range the visit reports an error in the place of no entries. -/
theorem visitRange_above_keys : ∃ m : CatalogMap Nat Bool,
    PersistentMap.Reaches (by decide) m
      (fun k => if k = 3 then some true else if k = 2 then some false else
        if k = 1 then some true else none) ∧
      m.toList = [(1, true), (2, false), (3, true)] ∧
      m.visitRange catalogRangeErrors 4 9 =
        .error (invalidData "live catalog range traversal stack underflow") :=
  ⟨_, .insert (.insert (.insert .empty rfl) rfl) rfl, rfl, rfl⟩

/-- The keys 1 to 5 are inserted in this order, with two rotations to the left, and 2 is removed from
the root, where its successor 3 takes its place. -/
theorem maps_hold_contents_rotated :
    let contents : Nat → Option Bool := fun k =>
      if k = 2 then none else if k = 5 then some true else if k = 4 then some false else
      if k = 3 then some true else if k = 2 then some false else
      if k = 1 then some true else none
    ∃ m : CatalogMap Nat Bool,
      m.root = .node 3 true (.node 1 true .nil .nil 1 1)
        (.node 4 false .nil (.node 5 true .nil .nil 1 1) 2 2) 3 4 ∧
      m.Holds contents ∧
      m.visitRange catalogRangeErrors 2 4 = .ok [(3, true), (4, false)] := by
  intro contents
  have hm : PersistentMap.Reaches (by decide) (_ : CatalogMap Nat Bool) contents :=
    .remove (.insert (.insert (.insert (.insert (.insert .empty rfl) rfl) rfl) rfl) rfl) rfl
  obtain ⟨hholds, hrange⟩ := @maps_hold_contents Nat Bool _
  exact ⟨_, rfl, hholds _ _ (.inl rfl) _ _ hm, (hrange _ _ _ hm 2 4).mpr (.inr ⟨3, by decide, rfl⟩)⟩

/-- `validate_name_membership` and `validate_value_membership` differ in their error. -/
def LabelMembership.validate (outside : IoError) (membership : LabelMembership)
    (revision generation : Nat) : Except IoError Unit :=
  require (membership.activeSeries ≠ 0 ∧ membership.rowRevision ≤ revision ∧
    membership.bornGeneration ≤ generation) outside

def validateNameMembership : LabelMembership → Nat → Nat → Except IoError Unit :=
  LabelMembership.validate
    (invalidData "live label-name membership is outside its pinned catalog cut")

def validateValueMembership : LabelMembership → Nat → Nat → Except IoError Unit :=
  LabelMembership.validate
    (invalidData "live label-value membership is outside its pinned catalog cut")

def validateSortedPresence (present : List SeriesRef) : Except IoError Unit :=
  require (present.IsChain (· < ·))
    (invalidData "live query time-presence set is not strictly sorted and unique")

namespace LiveSeriesCatalog

section
variable (catalog : LiveSeriesCatalog)

def seriesId (series : SeriesRef) : Except IoError (Option UInt64) :=
  match catalog.active.get series with
  | none => .ok none
  | some active => do
    require (active.rowRevision ≤ catalog.labels.revision ∧
      active.bornGeneration ≤ catalog.generation)
      (invalidData "live series entry is newer than its pinned catalog cut")
    return some active.seriesId

def resolveSymbol (id : SymbolId) : Except IoError String :=
  (catalog.labels.tryResolve id).mapError labelError

/-- The loop over the active names, or the active values of a name: the first one with this text. -/
def resolveActive {κ : Type} (validate : LabelMembership → Nat → Nat → Except IoError Unit)
    (symbol : κ → SymbolId) (text : String) :
    List (κ × LabelMembership) → Except IoError (Option κ)
  | [] => .ok none
  | (key, membership) :: entries => do
    validate membership catalog.labels.revision catalog.generation
    let stored ← catalog.resolveSymbol (symbol key)
    if stored = text then return some key
    else resolveActive validate symbol text entries

def resolveActiveName (name : String) : Except IoError (Option SymbolId) := do
  let entries ← catalog.names.inOrder none
  catalog.resolveActive validateNameMembership id name entries

def valuesOfName (name : SymbolId) : Except IoError (List (LabelValueKey × LabelMembership)) :=
  catalog.values.rangeEntries catalogRangeErrors ⟨name, 0⟩ ⟨name, counterMax 32⟩

def resolveActivePair (name value : String) : Except IoError (Option LabelValueKey) := do
  match ← catalog.resolveActiveName name with
  | none => return none
  | some nameId => do
    let entries ← catalog.valuesOfName nameId
    catalog.resolveActive validateValueMembership LabelValueKey.value value entries

variable (present : List SeriesRef)

-- The present series are sorted, so the binary search finds every one of them.
def postingsForIds (name value : SymbolId) : Except IoError (List SeriesRef) := do
  let entries ← catalog.postings.rangeEntries catalogRangeErrors ⟨name, value, ⟨0⟩⟩
    ⟨name, value, ⟨UInt32.ofNat (counterMax 32)⟩⟩
  entries.foldlM (fun posting entry => do
    require (entry.2.rowRevision ≤ catalog.labels.revision ∧
      entry.2.bornGeneration ≤ catalog.generation)
      (invalidData "live posting membership is newer than its pinned catalog cut")
    return if entry.1.series ∈ present then posting ++ [entry.1.series] else posting) []

structure PresentValue where
  id : SymbolId
  value : String
  posting : List SeriesRef

def presentValues (name : SymbolId) : Except IoError (List PresentValue) := do
  let entries ← catalog.valuesOfName name
  let values ← entries.foldlM (fun values entry => do
    validateValueMembership entry.2 catalog.labels.revision catalog.generation
    let posting ← catalog.postingsForIds present name entry.1.value
    if posting.isEmpty then return values
    else do
      let value ← catalog.resolveSymbol entry.1.value
      return values ++ [⟨entry.1.value, value, posting⟩]) []
  return values.mergeSort fun left right =>
    left.value < right.value ∨ (left.value = right.value ∧ left.id ≤ right.id)

def exactPostings (name value : String) : Except IoError (List SeriesRef) := do
  match ← catalog.resolveActivePair name value with
  | none => return []
  | some key => catalog.postingsForIds present key.name key.value

variable (regexNew : RegexSyntax)

def regexPostings (name pattern : String) (matchProjectionNames : Bool) :
    Charged (List SeriesRef) := do
  let regex ← MonadExcept.ofExcept ((compilePromqlRegex regexNew pattern).mapError invalidInput)
  match ← MonadExcept.ofExcept (catalog.resolveActiveName name) with
  | none => pure []
  | some nameId => do
    let values ← MonadExcept.ofExcept (catalog.presentValues present nameId)
    values.foldlM (fun out entry => do
      QueryBudget.observeRegexValue
      let isMatch := if matchProjectionNames then
        promqlProjectionMetricNameMatches entry.value regex else regex.isMatch entry.value
      pure (if isMatch then unionSorted out entry.posting else out)) []

def chargePresentRegexValues (name : String) : Charged Unit := do
  match ← MonadExcept.ofExcept (catalog.resolveActiveName name) with
  | none => pure ()
  | some nameId => do
    let values ← MonadExcept.ofExcept (catalog.presentValues present nameId)
    values.forM fun _ => QueryBudget.observeRegexValue

def findLabel (name : String) : List InternedKeyValue → Except IoError (Option String)
  | [] => .ok none
  | pair :: row => do
    let stored ← catalog.resolveSymbol pair.key
    if stored = name then some <$> catalog.resolveSymbol pair.value
    else findLabel name row

def labelValue (series : SeriesRef) (name : String) : Except IoError (Option String) := do
  let row ← (catalog.labels.tryCanonicalLabelsetSymbolIds series).mapError labelError
  catalog.findLabel name row

/-- The loop over the matchers that a missing label could pass; it ends at the first that fails. -/
def retains (matchProjectionNames : Bool) (series : SeriesRef) :
    List CompiledLabelMatcher → Except IoError Bool
  | [] => .ok true
  | matcher :: matchers => do
    let value ← catalog.labelValue series matcher.name
    if matcher.matchesValue (value.getD "") matchProjectionNames then
      retains matchProjectionNames series matchers
    else return false

def selectorPostings : SelectorPostings SeriesRef where
  all := present
  exactPostings name value := MonadExcept.ofExcept (catalog.exactPostings present name value)
  regexPostings := catalog.regexPostings present regexNew
  chargeRegexValues := catalog.chargePresentRegexValues present
  exclude := subtractSorted
  retains compiled matchProjectionNames series := MonadExcept.ofExcept
    (catalog.retains matchProjectionNames series (compiled.filter (·.requiresMissingLabelScan)))

def validatePresent : Except IoError Unit := do
  validateSortedPresence present
  present.forM fun series => do
    let id ← catalog.seriesId series
    require id.isSome
      (invalidData "time-presence set contains a series absent from the live catalog")

def matchingSeries (matchers : List NormalizedMatcher) (matchProjectionNames : Bool)
    : Charged (List SeriesRef) := do
  MonadExcept.ofExcept (catalog.validatePresent present)
  (catalog.selectorPostings present regexNew).matchingSeries matchProjectionNames regexNew matchers

end

end LiveSeriesCatalog

theorem LabelValueKey.le_iff {a b : LabelValueKey} :
    a ≤ b ↔ a.name < b.name ∨ a.name = b.name ∧ a.value ≤ b.value := by
  exact Prod.Lex.toLex_le_toLex

theorem LabelValueKey.range_iff {key : LabelValueKey} {name : SymbolId}
    (hvalue : key.value ≤ counterMax 32) :
    (⟨name, 0⟩ ≤ key ∧ key ≤ ⟨name, counterMax 32⟩) ↔ key.name = name := by
  rw [le_iff, le_iff]
  refine ⟨?_, fun hname => ⟨.inr ⟨hname.symm, Nat.zero_le _⟩, .inr ⟨hname, hvalue⟩⟩⟩
  rintro ⟨hlow | ⟨hlow, -⟩, hup | ⟨hup, -⟩⟩
  · exact absurd (hlow.trans hup) (lt_irrefl _)
  · exact hup
  · exact hlow.symm
  · exact hup

theorem PostingKey.le_iff {a b : PostingKey} :
    a ≤ b ↔ a.name < b.name ∨ a.name = b.name ∧
      (a.value < b.value ∨ a.value = b.value ∧ a.series ≤ b.series) := by
  change toLex (a.name, toLex (a.value, a.series)) ≤ toLex (b.name, toLex (b.value, b.series)) ↔ _
  rw [Prod.Lex.toLex_le_toLex, Prod.Lex.toLex_le_toLex]

theorem PostingKey.range_iff {key : PostingKey} {name value : SymbolId} :
    (⟨name, value, ⟨0⟩⟩ ≤ key ∧ key ≤ ⟨name, value, ⟨UInt32.ofNat (counterMax 32)⟩⟩) ↔
      key.name = name ∧ key.value = value := by
  have hfirst : (⟨0⟩ : SeriesRef) ≤ key.series := Nat.zero_le _
  have hlast : key.series ≤ ⟨UInt32.ofNat (counterMax 32)⟩ := by
    have hlt := key.series.get.toNat_lt
    change key.series.get.toNat ≤ 2 ^ 32 - 1
    omega
  rw [le_iff, le_iff]
  constructor
  · rintro ⟨hlow | ⟨hlow, hlow'⟩, hup | ⟨hup, hup'⟩⟩
    · exact absurd (hlow.trans hup) (lt_irrefl _)
    · exact absurd hlow (hup ▸ lt_irrefl _)
    · exact absurd hup (hlow ▸ lt_irrefl _)
    refine ⟨hup, ?_⟩
    rcases hlow' with hlow' | hlow'
    · rcases hup' with hup' | hup'
      · exact absurd (hlow'.trans hup') (lt_irrefl _)
      · exact hup'.1
    · exact hlow'.1.symm
  · rintro ⟨hname, hvalue⟩
    exact ⟨.inr ⟨hname.symm, .inr ⟨hvalue.symm, hfirst⟩⟩, .inr ⟨hname, .inr ⟨hvalue, hlast⟩⟩⟩

theorem PostingKey.series_lt {a b : PostingKey} (h : a < b) (hname : a.name = b.name)
    (hvalue : a.value = b.value) : a.series < b.series := by
  rw [← not_le, le_iff, hname, hvalue] at h
  simpa using h

namespace LiveSeriesCatalog

variable (catalog : LiveSeriesCatalog)

def rowLabels (series : SeriesRef) : LabelRow :=
  (catalog.row series).map (InternedKeyValue.resolve catalog.labels.symbols)

def presentRow (present : List SeriesRef) (series : SeriesRef) : Option LabelRow :=
  if series ∈ present then some (catalog.rowLabels series) else none

/-- A catalog as runs leave it: an index of rows that resolve, pinned to its cut. -/
structure Readable (catalog : LiveSeriesCatalog) : Prop where
  indexed : catalog.Indexed
  pinned : catalog.Pinned
  nodup : catalog.labels.symbols.Nodup
  bounded : catalog.labels.symbols.length ≤ counterMax 32 + 1
  rows : ∀ series ∈ catalog.active.keys,
    RowOf catalog.labels.symbols (catalog.row series) (catalog.rowLabels series) ∧
      KeepLast.Increasing Prod.fst (catalog.rowLabels series)

section
variable {catalog : LiveSeriesCatalog} {κ : Type}

theorem resolveSymbol_gives {id : SymbolId} {text : String}
    (h : catalog.labels.symbols[id]? = some text) :
    Gives (fun _ => False) (· = text) (catalog.resolveSymbol id) := by
  rw [resolveSymbol, tryResolve_ok h]
  exact rfl

theorem validate_gives [LinearOrder κ] {map : CatalogMap κ LabelMembership} {count : κ → Nat}
    {revision generation : Nat} (htallies : map.Tallies count)
    (hwithin : map.All (·.Within revision generation)) (outside : IoError) :
    ∀ e ∈ map.toList, Gives (fun _ => False) (fun _ => True)
      (e.2.validate outside revision generation) := by
  intro e he
  have hget := PersistentMap.mem_toList.mp he
  rw [LabelMembership.validate, require_pos ⟨(htallies.get_some hget).2.ne', hwithin _ _ hget⟩]
  trivial

theorem resolveActive_gives {validate : LabelMembership → Nat → Nat → Except IoError Unit}
    {symbol : κ → SymbolId} (text : String) {entries : List (κ × LabelMembership)}
    (hvalid : ∀ e ∈ entries, Gives (fun _ => False) (fun _ => True)
      (validate e.2 catalog.labels.revision catalog.generation))
    (hresolves : ∀ e ∈ entries, ∃ stored, catalog.labels.symbols[symbol e.1]? = some stored) :
    Gives (fun _ => False) (fun
      | some key => catalog.labels.symbols[symbol key]? = some text ∧ ∃ e ∈ entries, e.1 = key
      | none => ∀ e ∈ entries, catalog.labels.symbols[symbol e.1]? ≠ some text)
      (catalog.resolveActive validate symbol text entries) := by
  induction entries with
  | nil => exact forall_mem_nil _
  | cons e entries ih =>
    obtain ⟨hvalid, hvalids⟩ := forall_mem_cons.mp hvalid
    obtain ⟨⟨stored, hstored⟩, hresolves⟩ := forall_mem_cons.mp hresolves
    refine hvalid.bind fun _ _ => (resolveSymbol_gives hstored).bind ?_
    rintro _ rfl
    split
    · rename_i heq
      exact ⟨heq ▸ hstored, e, mem_cons_self, rfl⟩
    rename_i hne
    refine (ih hvalids hresolves).post fun found hfound => ?_
    cases found with
    | some key => exact ⟨hfound.1, hfound.2.imp fun e he => ⟨mem_cons_of_mem _ he.1, he.2⟩⟩
    | none =>
      refine forall_mem_cons.mpr ⟨fun htext => hne ?_, hfound⟩
      exact Option.some.inj (hstored.symm.trans htext)

theorem isSome_of_mem [LinearOrder κ] {ν : Type} {map : CatalogMap κ ν} {e : κ × ν}
    (he : e ∈ map.toList) : (map.get e.1).isSome := by
  rw [PersistentMap.mem_toList.mp he]
  rfl

theorem exists_mem_of_isSome [LinearOrder κ] {ν : Type} {map : CatalogMap κ ν} {key : κ}
    (hsome : (map.get key).isSome) : ∃ value, (key, value) ∈ map.toList := by
  obtain ⟨value, hget⟩ := Option.isSome_iff_exists.mp hsome
  exact ⟨value, PersistentMap.mem_toList.mpr hget⟩

theorem isSome_of_tallies [LinearOrder κ] {map : CatalogMap κ LabelMembership} {count : κ → Nat}
    (h : map.Tallies count) (key : κ) : (map.get key).isSome ↔ 0 < count key := by
  cases hget : map.get key with
  | none => simp [h.get_none hget]
  | some membership => simp [(h.get_some hget).1, (h.get_some hget).2]

end

namespace Readable
open SelectorPostings

variable {catalog : LiveSeriesCatalog} (h : catalog.Readable) {present : List SeriesRef}
  {series : SeriesRef}
include h

theorem isSome_name_iff (name : SymbolId) : (catalog.names.get name).isSome ↔
    ∃ series ∈ catalog.active.keys, ∃ pair ∈ catalog.row series, pair.key = name := by
  rw [isSome_of_tallies h.indexed.holds.names, nameCount, countP_pos_iff]
  simp

theorem isSome_value_iff (key : LabelValueKey) : (catalog.values.get key).isSome ↔
    ∃ series ∈ catalog.active.keys, ⟨key.name, key.value⟩ ∈ catalog.row series := by
  rw [isSome_of_tallies h.indexed.holds.values, valueCount, countP_pos_iff]
  simp only [decide_eq_true_eq]
  refine exists_congr fun series => and_congr_right fun _ => ⟨?_, fun hmem => ⟨_, hmem, rfl⟩⟩
  rintro ⟨pair, hpair, rfl⟩
  exact hpair

theorem resolves (hactive : series ∈ catalog.active.keys) {pair : InternedKeyValue}
    (hpair : pair ∈ catalog.row series) :
    pair.Resolves catalog.labels.symbols (pair.resolve catalog.labels.symbols) :=
  (rowOf_iff.mp (h.rows series hactive).1).1 pair hpair

theorem value_resolves {e : LabelValueKey × LabelMembership} (he : e ∈ catalog.values.toList) :
    ∃ text, catalog.labels.symbols[e.1.value]? = some text := by
  obtain ⟨series, hactive, hpair⟩ := (h.isSome_value_iff e.1).mp (isSome_of_mem he)
  exact ⟨_, (h.resolves hactive hpair).2⟩

theorem labelValue_iff (hactive : series ∈ catalog.active.keys) (name value : String) :
    Chronoxide.labelValue (catalog.rowLabels series) name = some value ↔
      ∃ pair ∈ catalog.row series, pair.Resolves catalog.labels.symbols (name, value) := by
  rw [labelValue_eq_some_iff (h.rows series hactive).2, rowLabels, mem_map]
  refine exists_congr fun pair => and_congr_right fun hpair => ⟨fun heq => ?_, fun hres => ?_⟩
  · rw [← heq]
    exact h.resolves hactive hpair
  · exact hres.resolve_eq

theorem id_unique {id id' : SymbolId} {text : String}
    (hid : catalog.labels.symbols[id]? = some text)
    (hid' : catalog.labels.symbols[id']? = some text) : id = id' :=
  (List.getElem?_inj (List.getElem?_eq_some_iff.mp hid).1 h.nodup).mp (hid.trans hid'.symm)

theorem resolveActiveName_gives (name : String) :
    Gives (fun _ => False) (fun
      | some id => catalog.labels.symbols[id]? = some name ∧ (catalog.names.get id).isSome
      | none => ∀ series ∈ catalog.active.keys, ∀ pair ∈ catalog.row series,
          catalog.labels.symbols[pair.key]? ≠ some name) (catalog.resolveActiveName name) := by
  unfold resolveActiveName
  rw [catalog.names.inOrder_none]
  have hresolves : ∀ e ∈ catalog.names.toList,
      ∃ stored, catalog.labels.symbols[id e.1]? = some stored := by
    intro e he
    obtain ⟨series, hactive, pair, hpair, hkey⟩ := (h.isSome_name_iff e.1).mp (isSome_of_mem he)
    exact ⟨_, hkey ▸ (h.resolves hactive hpair).1⟩
  refine (resolveActive_gives name (validate_gives h.indexed.holds.names h.pinned.names _)
    hresolves).post fun found hfound => ?_
  cases found with
  | some id =>
    obtain ⟨htext, e, he, rfl⟩ := hfound
    exact ⟨htext, isSome_of_mem he⟩
  | none =>
    intro series hactive pair hpair
    obtain ⟨membership, hmem⟩ := exists_mem_of_isSome
      ((h.isSome_name_iff pair.key).mpr ⟨series, hactive, pair, hpair, rfl⟩)
    exact hfound (pair.key, membership) hmem

theorem valuesOfName_gives {name : SymbolId} (hname : (catalog.names.get name).isSome) :
    Gives (fun _ => False) (fun entries => ∀ e, e ∈ entries ↔ e ∈ catalog.values.toList ∧
      e.1.name = name) (catalog.valuesOfName name) := by
  obtain ⟨series, hactive, pair, hpair, rfl⟩ := (h.isSome_name_iff name).mp hname
  obtain ⟨membership, hmem⟩ := exists_mem_of_isSome
    ((h.isSome_value_iff pair.valueKey).mpr ⟨series, hactive, hpair⟩)
  have hlower : (⟨pair.key, 0⟩ : LabelValueKey) ≤ pair.valueKey :=
    LabelValueKey.le_iff.mpr (.inr ⟨rfl, Nat.zero_le _⟩)
  have hupper : (⟨pair.key, 0⟩ : LabelValueKey) ≤ ⟨pair.key, counterMax 32⟩ :=
    LabelValueKey.le_iff.mpr (.inr ⟨rfl, Nat.zero_le _⟩)
  unfold valuesOfName
  rw [catalog.values.rangeEntries_ok catalogRangeErrors hupper hmem hlower]
  intro e
  rw [List.mem_filter, decide_eq_true_iff]
  refine and_congr_right fun he => LabelValueKey.range_iff ?_
  obtain ⟨text, htext⟩ := h.value_resolves he
  have hlt := (List.getElem?_eq_some_iff.mp htext).1
  exact Nat.le_of_lt_succ (hlt.trans_le h.bounded)

theorem resolveActivePair_gives (name value : String) :
    Gives (fun _ => False) (fun
      | some key => catalog.labels.symbols[key.name]? = some name ∧
          catalog.labels.symbols[key.value]? = some value ∧ (catalog.values.get key).isSome
      | none => ∀ series ∈ catalog.active.keys, ∀ pair ∈ catalog.row series,
          ¬pair.Resolves catalog.labels.symbols (name, value))
      (catalog.resolveActivePair name value) := by
  refine (h.resolveActiveName_gives name).bind fun found hfound => ?_
  cases found with
  | none => exact fun series hactive pair hpair hres => hfound series hactive pair hpair hres.1
  | some nameId =>
    obtain ⟨hname, hactiveName⟩ := hfound
    refine (h.valuesOfName_gives hactiveName).bind fun entries hentries => ?_
    have hvalid : ∀ e ∈ entries, Gives (fun _ => False) (fun _ => True)
        (validateValueMembership e.2 catalog.labels.revision catalog.generation) := fun e he =>
      validate_gives h.indexed.holds.values h.pinned.values _ e ((hentries e).mp he).1
    refine (resolveActive_gives value hvalid fun e he =>
      h.value_resolves ((hentries e).mp he).1).post fun found hfound => ?_
    cases found with
    | some key =>
      obtain ⟨hvalue, e, he, rfl⟩ := hfound
      obtain ⟨hmem, rfl⟩ := (hentries e).mp he
      exact ⟨hname, hvalue, isSome_of_mem hmem⟩
    | none =>
      intro series hactive pair hpair hres
      obtain ⟨membership, hmem⟩ := exists_mem_of_isSome
        ((h.isSome_value_iff pair.valueKey).mpr ⟨series, hactive, hpair⟩)
      exact hfound (pair.valueKey, membership)
        ((hentries _).mpr ⟨hmem, h.id_unique hres.1 hname⟩) hres.2

variable (hpresent : ∀ series ∈ present, series ∈ catalog.active.keys)
include hpresent

theorem postingsForIds_gives {name value : SymbolId}
    (hvalue : (catalog.values.get ⟨name, value⟩).isSome) :
    Gives (fun _ => False) (fun posting => Is posting fun series =>
        series ∈ present ∧ ⟨name, value⟩ ∈ catalog.row series)
      (catalog.postingsForIds present name value) := by
  obtain ⟨first, hactive, hpair⟩ := (h.isSome_value_iff _).mp hvalue
  obtain ⟨membership, hmem⟩ := exists_mem_of_isSome
    ((h.indexed.holds.postings ⟨name, value, first⟩).mpr ⟨hactive, hpair⟩)
  have hrange := (@PostingKey.range_iff ⟨name, value, first⟩ name value).mpr ⟨rfl, rfl⟩
  unfold postingsForIds
  rw [catalog.postings.rangeEntries_ok catalogRangeErrors (hrange.1.trans hrange.2) hmem hrange.1]
  simp only [PostingKey.range_iff]
  let entries := catalog.postings.toList.filter fun e => e.1.name = name ∧ e.1.value = value
  have hentries : ∀ e ∈ entries, e ∈ catalog.postings.toList ∧ e.1.name = name ∧
      e.1.value = value := fun e he => ⟨(mem_filter.mp he).1,
    of_decide_eq_true (mem_filter.mp he).2⟩
  -- the loop keeps the present series of the entries
  refine (gives_foldlM (l := entries) (I := fun done posting =>
    posting = (done.map fun e => e.1.series).filter (· ∈ present)) ?_ rfl).post ?_
  · rintro e he done _ rfl
    have hdated := h.pinned.postings _ _ (PersistentMap.mem_toList.mp (hentries e he).1)
    refine (gives_require fun hnot => hnot hdated).bind fun _ _ => ?_
    change (if _ then _ else _) = _
    by_cases hmem : e.1.series ∈ present
    · simp [hmem]
    · simp [hmem]
  rintro _ rfl
  refine ⟨List.Pairwise.filter _ (pairwise_map.mpr ?_), fun series => ?_⟩
  · have hsorted : entries.Pairwise fun a b => a.1 < b.1 := catalog.postings.sorted_toList.filter _
    refine hsorted.imp_of_mem fun ha hb hlt => PostingKey.series_lt hlt ?_ ?_
    · rw [(hentries _ ha).2.1, (hentries _ hb).2.1]
    · rw [(hentries _ ha).2.2, (hentries _ hb).2.2]
  rw [mem_filter, decide_eq_true_iff, and_comm, mem_map]
  refine and_congr_right fun hmem => ⟨?_, fun hrow => ?_⟩
  · rintro ⟨e, he, rfl⟩
    obtain ⟨hlist, rfl, rfl⟩ := hentries e he
    exact ((h.indexed.holds.postings e.1).mp (isSome_of_mem hlist)).2
  · obtain ⟨membership, hlist⟩ := exists_mem_of_isSome
      ((h.indexed.holds.postings ⟨name, value, series⟩).mpr ⟨hpresent series hmem, hrow⟩)
    exact ⟨(⟨name, value, series⟩, membership), mem_filter.mpr ⟨hlist, by simp⟩, rfl⟩

omit h hpresent in
theorem stored_presentRow_iff {p : LabelRow → Prop} :
    Stored (catalog.presentRow present) p series ↔ series ∈ present ∧ p (catalog.rowLabels series) := by
  unfold Stored presentRow
  simp only [Option.ite_none_right_eq_some, Option.some_inj, and_assoc]
  exact ⟨fun ⟨_, hmem, heq, hp⟩ => ⟨hmem, heq ▸ hp⟩, fun ⟨hmem, hp⟩ => ⟨_, hmem, rfl, hp⟩⟩

theorem stored_label_iff {name value : SymbolId} {nameText valueText : String}
    (hname : catalog.labels.symbols[name]? = some nameText)
    (hvalue : catalog.labels.symbols[value]? = some valueText) :
    Stored (catalog.presentRow present)
        (fun row => Chronoxide.labelValue row nameText = some valueText) series ↔
      series ∈ present ∧ ⟨name, value⟩ ∈ catalog.row series := by
  rw [stored_presentRow_iff]
  refine and_congr_right fun hmem => ?_
  rw [h.labelValue_iff (hpresent series hmem)]
  constructor
  · rintro ⟨⟨key, value'⟩, hpair, hres⟩
    rw [h.id_unique hname hres.1, h.id_unique hvalue hres.2]
    exact hpair
  · intro hpair
    exact ⟨_, hpair, hname, hvalue⟩

theorem exactPostings_gives (name value : String) :
    Gives (fun _ => False) (fun refs => Is refs (Stored (catalog.presentRow present)
        fun row => Chronoxide.labelValue row name = some value))
      (catalog.exactPostings present name value) := by
  refine (h.resolveActivePair_gives name value).bind fun found hfound => ?_
  cases found with
  | none =>
    refine Is.nil fun series hstored => ?_
    obtain ⟨hmem, hvalue⟩ := stored_presentRow_iff.mp hstored
    obtain ⟨pair, hpair, hres⟩ := (h.labelValue_iff (hpresent series hmem) ..).mp hvalue
    exact hfound series (hpresent series hmem) pair hpair hres
  | some key =>
    obtain ⟨hname, hvalue, hsome⟩ := hfound
    exact (h.postingsForIds_gives hpresent hsome).post fun refs hrefs =>
      hrefs.congr fun _ => (h.stored_label_iff hpresent hname hvalue).symm

omit h hpresent in
structure Collected (catalog : LiveSeriesCatalog) (present : List SeriesRef) (nameId : SymbolId)
    (name : String) (done : List (LabelValueKey × LabelMembership)) (values : List PresentValue) :
    Prop where
  postings : ∀ entry ∈ values, Is entry.posting (Stored (catalog.presentRow present)
    fun row => Chronoxide.labelValue row name = some entry.value)
  values : ∀ e ∈ done, ∀ series ∈ present, ⟨nameId, e.1.value⟩ ∈ catalog.row series →
    ∃ entry ∈ values, catalog.labels.symbols[e.1.value]? = some entry.value

theorem presentValues_gives {nameId : SymbolId} {name : String}
    (hname : catalog.labels.symbols[nameId]? = some name)
    (hactiveName : (catalog.names.get nameId).isSome) :
    Gives (fun _ => False) (fun values =>
        (∀ entry ∈ values, Is entry.posting (Stored (catalog.presentRow present)
          fun row => Chronoxide.labelValue row name = some entry.value)) ∧
        ∀ series row found, catalog.presentRow present series = some row →
          Chronoxide.labelValue row name = some found → ∃ entry ∈ values, entry.value = found)
      (catalog.presentValues present nameId) := by
  refine (h.valuesOfName_gives hactiveName).bind fun entries hentries => ?_
  refine Gives.bind (gives_foldlM (I := Collected catalog present nameId name) ?_
    ⟨by simp, by simp⟩) ?_
  · rintro e he done values ⟨hvalues, hdone⟩
    obtain ⟨hlist, hkey⟩ := (hentries e).mp he
    have hsome := isSome_of_mem hlist
    obtain ⟨text, hvalue⟩ := h.value_resolves hlist
    obtain ⟨⟨eName, eValue⟩, membership⟩ := e
    obtain rfl : eName = nameId := hkey
    refine (validate_gives h.indexed.holds.values h.pinned.values _ _ hlist).bind fun _ _ => ?_
    refine (h.postingsForIds_gives hpresent hsome).bind fun posting hposting => ?_
    split
    · rename_i hempty
      exact ⟨hvalues, forall_mem_append.mpr ⟨hdone, forall_mem_singleton.mpr
        fun series hmem hrow => absurd ⟨hmem, hrow⟩ (hposting.not_of_isEmpty hempty series)⟩⟩
    refine (resolveSymbol_gives hvalue).bind fun value htext => ?_
    rw [← htext] at hvalue
    refine ⟨forall_mem_append.mpr ⟨hvalues, forall_mem_singleton.mpr ?_⟩,
      forall_mem_append.mpr ⟨fun e he series hmem hrow => ?_,
        forall_mem_singleton.mpr fun _ _ _ => ?_⟩⟩
    · exact hposting.congr fun _ => (h.stored_label_iff hpresent hname hvalue).symm
    · obtain ⟨entry, hentry, htext⟩ := hdone e he series hmem hrow
      exact ⟨entry, mem_append_left _ hentry, htext⟩
    · exact ⟨_, mem_append_right _ mem_cons_self, hvalue⟩
  rintro values ⟨hvalues, hall⟩
  refine ⟨fun entry hentry => hvalues entry (mem_mergeSort.mp hentry), ?_⟩
  intro series row found hrow hfound
  have hstored : Stored (catalog.presentRow present)
      (fun row => Chronoxide.labelValue row name = some found) series := ⟨row, hrow, hfound⟩
  obtain ⟨hmem, hvalue⟩ := stored_presentRow_iff.mp hstored
  obtain ⟨⟨key, value⟩, hpair, hkey, hvalue⟩ :=
    (h.labelValue_iff (hpresent series hmem) ..).mp hvalue
  obtain rfl := h.id_unique hname hkey
  obtain ⟨membership, hlist⟩ := exists_mem_of_isSome
    ((h.isSome_value_iff ⟨nameId, value⟩).mpr ⟨series, hpresent series hmem, hpair⟩)
  obtain ⟨entry, hentry, htext⟩ := hall (⟨nameId, value⟩, membership)
    ((hentries _).mpr ⟨hlist, rfl⟩) series hmem hpair
  exact ⟨entry, mem_mergeSort.mpr hentry, Option.some.inj (htext.symm.trans hvalue)⟩

omit hpresent in
theorem labelValue_gives (hactive : series ∈ catalog.active.keys) (name : String) :
    Gives (fun _ => False) (· = Chronoxide.labelValue (catalog.rowLabels series) name)
      (catalog.labelValue series name) := by
  obtain ⟨row, hrow, -⟩ := h.indexed.rows series hactive
  have hlabels : catalog.rowLabels series =
      row.map (InternedKeyValue.resolve catalog.labels.symbols) := by
    rw [rowLabels, LiveSeriesCatalog.row, hrow, Option.getD_some]
  have hpairs : ∀ pair ∈ row,
      pair.Resolves catalog.labels.symbols (pair.resolve catalog.labels.symbols) := by
    intro pair hpair
    refine h.resolves hactive ?_
    rw [LiveSeriesCatalog.row, hrow, Option.getD_some]
    exact hpair
  unfold LiveSeriesCatalog.labelValue VersionedFlatInternedLabelSetSnapshot.tryCanonicalLabelsetSymbolIds
  rw [hrow, hlabels]
  clear hrow hlabels
  induction row with
  | nil => exact rfl
  | cons pair row ih =>
    obtain ⟨hpair, hpairs⟩ := forall_mem_cons.mp hpairs
    unfold findLabel Chronoxide.labelValue
    rw [map_cons, KeyedList.lookup_cons_ite]
    refine (resolveSymbol_gives hpair.1).bind ?_
    rintro _ rfl
    by_cases hname : (pair.resolve catalog.labels.symbols).1 = name
    · rw [if_pos hname, if_pos hname.symm, map_eq_pure_bind]
      refine (resolveSymbol_gives hpair.2).bind ?_
      rintro _ rfl
      exact rfl
    · rw [if_neg hname, if_neg fun heq => hname heq.symm]
      exact ih hpairs

omit hpresent in
theorem retains_gives (hactive : series ∈ catalog.active.keys) (projected : Bool)
    (matchers : List CompiledLabelMatcher) :
    Gives (fun _ => False) (fun keep => keep = true ↔ ∀ matcher ∈ matchers, matcher.matchesValue
        ((Chronoxide.labelValue (catalog.rowLabels series) matcher.name).getD "") projected)
      (catalog.retains projected series matchers) := by
  induction matchers with
  | nil => simp [LiveSeriesCatalog.retains, Gives]
  | cons matcher matchers ih =>
    refine (h.labelValue_gives hactive matcher.name).bind ?_
    rintro _ rfl
    split
    · rename_i hmatch
      refine ih.post fun keep hkeep => ?_
      rw [hkeep, forall_mem_cons, and_iff_right hmatch]
    · rename_i hno
      exact iff_of_false Bool.false_ne_true fun hall => hno (hall matcher mem_cons_self)

theorem faithful (hsorted : Sorted present) (regexNew : RegexSyntax) (limits : QueryLimits) :
    (catalog.selectorPostings present regexNew).Faithful regexNew limits
      (catalog.presentRow present) where
  all := ⟨hsorted, fun series => by rw [stored_presentRow_iff, and_iff_left trivial]; rfl⟩
  exactPostings name value := ofExcept (h.exactPostings_gives hpresent name value)
  regexPostings name pattern regex projected hregex := by
    change Returns limits (catalog.regexPostings present regexNew name pattern projected) _
    unfold LiveSeriesCatalog.regexPostings
    rw [hregex]
    refine seq (Q := (· = regex)) (ret rfl) ?_
    rintro _ rfl
    refine (ofExcept (h.resolveActiveName_gives name)).seq fun found hfound => ?_
    cases found with
    | none =>
      refine ret (Is.nil fun series hstored => ?_)
      obtain ⟨hmem, value, hvalue, -⟩ := stored_presentRow_iff.mp hstored
      obtain ⟨pair, hpair, hres⟩ := (h.labelValue_iff (hpresent series hmem) ..).mp hvalue
      exact hfound series (hpresent series hmem) pair hpair hres.1
    | some nameId =>
      obtain ⟨hname, hactiveName⟩ := hfound
      refine (ofExcept (h.presentValues_gives hpresent hname hactiveName)).seq ?_
      rintro values ⟨hvalues, hall⟩
      exact valueLoop_returns _ hvalues hall
  chargeRegexValues name := by
    refine (ofExcept (h.resolveActiveName_gives name)).seq fun found hfound => ?_
    cases found with
    | none => exact ret trivial
    | some nameId =>
      refine (ofExcept (h.presentValues_gives hpresent hfound.1 hfound.2)).seq fun _ _ => ?_
      exact forM fun _ _ => observeRegexValue
  exclude candidates posting P Q hcandidates hposting := hcandidates.subtract hposting
  retains compiled projected series row hrow := by
    obtain ⟨hmem, heq⟩ := stored_presentRow_iff.mp ⟨row, hrow, (rfl : row = row)⟩
    refine (ofExcept (h.retains_gives (hpresent series hmem) projected _)).mono ?_
    intro keep hkeep
    rw [hkeep, heq]
    simp

omit hpresent in
theorem validatePresent_ok_iff :
    catalog.validatePresent present = .ok () ↔
      Sorted present ∧ ∀ series ∈ present, series ∈ catalog.active.keys := by
  unfold validatePresent validateSortedPresence
  simp only [require_bind_ok, isChain_iff_pairwise]
  rw [forM_ok_iff]
  refine and_congr_right fun _ => forall₂_congr fun series _ => ?_
  rw [PersistentMap.mem_keys]
  unfold seriesId
  cases hget : catalog.active.get series with
  | none => simp [bind, Except.bind, require]
  | some active =>
    simp only [require_pos (h.pinned.active series active hget)]
    simp [bind, Except.bind, pure, Except.pure, require]

end Readable

end LiveSeriesCatalog

end Chronoxide
