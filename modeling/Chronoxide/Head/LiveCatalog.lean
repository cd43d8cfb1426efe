import Chronoxide.Head.Catalog
import Chronoxide.Head.SampleStoreContents

/-! The live catalog (`head/catalog.rs`): the active series of a sample store with inverted indexes of
their labels, and its builder. -/

namespace Chronoxide
open Codec AvlMap

def catalogMapChecks : Checks IoError where
  heightBound := 2 ^ 16
  entryBound := 2 ^ 64
  heightOverflows := invalidData "live catalog map height overflows u16"
  sumOverflows := invalidData "live catalog map entry count overflows u64"
  entriesOverflow := invalidData "live catalog map entry count overflows u64"
  leftHeavy := invalidData "left-heavy live catalog map has no left child"
  rightHeavy := invalidData "right-heavy live catalog map has no right child"
  rotateLeft := invalidData "cannot rotate live catalog map left without right child"
  rotateRight := invalidData "cannot rotate live catalog map right without left child"
  successor := invalidData "live catalog map successor disappeared during removal"
  node := invalidData "live catalog map metadata or AVL balance is invalid"
  traversalHeight := invalidData "live catalog traversal exceeds validated map height"
  underflow := invalidData "live catalog map traversal stack underflow"
  unordered := invalidData "live catalog map keys are not strictly ordered"
  entryCount := invalidData "live catalog map traversal disagrees with root count"
  room := room_of_bounds

abbrev CatalogMap (κ ν : Type) [LinearOrder κ] := PersistentMap catalogMapChecks κ ν

def CatalogMap.default {κ ν : Type} [LinearOrder κ] : CatalogMap κ ν := .empty (by decide)

def CatalogMap.validateRoot {κ ν : Type} [LinearOrder κ] (map : CatalogMap κ ν) :
    Except IoError Unit :=
  match map.root with
  | .nil => .ok ()
  | .node _ _ left right height entries =>
    Tree.validateNode catalogMapChecks left right height entries

/-- A snapshot of the label store and the identity of the store. -/
structure CatalogLabels extends VersionedFlatInternedLabelSetSnapshot where
  lineageId : Nat

structure ActiveSeries where
  seriesId : UInt64
  rowRevision : Nat
  bornGeneration : Nat
  deriving DecidableEq, Repr

structure PostingKey where
  name : SymbolId
  value : SymbolId
  series : SeriesRef
  deriving DecidableEq, Repr

structure PostingMembership where
  rowRevision : Nat
  bornGeneration : Nat
  deriving DecidableEq, Repr

structure LabelValueKey where
  name : SymbolId
  value : SymbolId
  deriving DecidableEq, Repr

/-- `LabelNameMembership` and `LabelValueMembership` have the same fields. -/
structure LabelMembership where
  activeSeries : Nat
  rowRevision : Nat
  bornGeneration : Nat
  deriving DecidableEq, Repr

theorem PostingKey.sortKey_inj {a b : PostingKey}
    (h : toLex (a.name, toLex (a.value, a.series)) = toLex (b.name, toLex (b.value, b.series))) :
    a = b := by
  obtain ⟨name, value, series⟩ := a
  obtain ⟨name', value', series'⟩ := b
  obtain ⟨rfl, rfl, rfl⟩ := h
  rfl

instance : LinearOrder PostingKey :=
  LinearOrder.lift' (β := SymbolId ×ₗ SymbolId ×ₗ SeriesRef)
    (fun key => toLex (key.name, toLex (key.value, key.series))) fun _ _ => PostingKey.sortKey_inj

theorem LabelValueKey.sortKey_inj {a b : LabelValueKey}
    (h : toLex (a.name, a.value) = toLex (b.name, b.value)) : a = b := by
  obtain ⟨name, value⟩ := a
  obtain ⟨name', value'⟩ := b
  obtain ⟨rfl, rfl⟩ := h
  rfl

instance : LinearOrder LabelValueKey :=
  LinearOrder.lift' (β := SymbolId ×ₗ SymbolId) (fun key => toLex (key.name, key.value))
    fun _ _ => LabelValueKey.sortKey_inj

/-- The builder has the same fields, and a finished catalog takes them over. -/
structure LiveSeriesCatalog where
  labels : CatalogLabels
  generation : Nat
  active : CatalogMap SeriesRef ActiveSeries
  postings : CatalogMap PostingKey PostingMembership
  names : CatalogMap SymbolId LabelMembership
  values : CatalogMap LabelValueKey LabelMembership

abbrev LiveSeriesCatalogBuilder := LiveSeriesCatalog

structure CatalogFaults where
  samples : StoreFaults
  entries : Option IoError
  current : Option IoError

section
variable {κ : Type} [LinearOrder κ]

def LabelMembership.joined (existing : Option LabelMembership) (rowRevision generation : Nat)
    (overflows : IoError) : Except IoError LabelMembership :=
  match existing with
  | some existing => do
    require (existing.activeSeries < counterMax 32) overflows
    return ⟨existing.activeSeries + 1, min existing.rowRevision rowRevision,
      existing.bornGeneration⟩
  | none => .ok ⟨1, rowRevision, generation⟩

variable (map : CatalogMap κ LabelMembership)

def CatalogMap.join (key : κ) (rowRevision generation : Nat) (overflows : IoError)
    : Except IoError (CatalogMap κ LabelMembership) := do
  let membership ← LabelMembership.joined (map.get key) rowRevision generation overflows
  map.insert key membership

def CatalogMap.take {ν : Type} (map : CatalogMap κ ν) (key : κ) (missing : IoError) :
    Except IoError (CatalogMap κ ν) := do
  let (map, removed) ← map.remove key
  require removed missing
  return map

-- No membership counts zero series, so the difference is exact.
def CatalogMap.leave (key : κ) (disappeared notRetired : IoError)
    : Except IoError (CatalogMap κ LabelMembership) :=
  match map.get key with
  | none => .error disappeared
  | some existing =>
    if existing.activeSeries = 1 then map.take key notRetired
    else map.insert key { existing with activeSeries := existing.activeSeries - 1 }

end

namespace LiveSeriesCatalog

section
variable (H : LabelHashes)

def validateRevisionRows (labels : CatalogLabels) (startRevision endRevision : Nat) :
    Except IoError Unit := do
  require (startRevision ≤ endRevision ∧ endRevision ≤ labels.revision)
    (invalidData "live catalog row-validation revision range is invalid")
  (List.range' startRevision (endRevision - startRevision)).foldlM (fun _ raw => do
    require (raw ≤ counterMax 32) (invalidData "live catalog revision exceeds SeriesRef range")
    let _ ← validatedRow H labels.toVersionedFlatInternedLabelSetSnapshot ⟨UInt32.ofNat raw⟩
    return ()) ()

def new (labels : CatalogLabels) (candidateGeneration : Nat) :
    Except IoError LiveSeriesCatalogBuilder := do
  require (candidateGeneration ≠ 0)
    (invalidData "live series catalog generation zero is reserved")
  validateRevisionRows H labels 0 labels.revision
  return ⟨labels, candidateGeneration, .default, .default, .default, .default⟩

variable (previous : LiveSeriesCatalog)

def validateSuccessor (labels : CatalogLabels) (candidateGeneration : Nat)
    : Except IoError Unit := do
  require (labels.lineageId = previous.labels.lineageId)
    (invalidData "live catalog revision came from a different label-store lineage")
  require (previous.labels.revision ≤ labels.revision) (invalidData
    s!"live catalog revision regressed from {previous.labels.revision} to {labels.revision}")
  validateRevisionRows H labels previous.labels.revision labels.revision
  require (previous.generation < counterMax 64)
    (invalidData "live series catalog generation overflows u64")
  require (candidateGeneration = previous.generation + 1) (invalidData
    s!"live catalog candidate generation {candidateGeneration} does not follow pinned generation {previous.generation}")

def fromCatalog (labels : CatalogLabels) (candidateGeneration : Nat)
    : Except IoError LiveSeriesCatalogBuilder := do
  validateSuccessor H previous labels candidateGeneration
  return { previous with labels, generation := candidateGeneration }

def emptySuccessor (labels : CatalogLabels) (candidateGeneration : Nat)
    : Except IoError LiveSeriesCatalogBuilder := do
  validateSuccessor H previous labels candidateGeneration
  return ⟨labels, candidateGeneration, .default, .default, .default, .default⟩

def nameOverflows : IoError := invalidData "live label-name active-series count overflows u32"

def valueOverflows : IoError := invalidData "live label-value active-series count overflows u32"

variable (series : SeriesRef)

def outsideRevision (labels : CatalogLabels) : IoError :=
  invalidData s!"series ref {series.get.toNat} is outside catalog revision {labels.revision}"

def activateLabel (rowRevision : Nat) (builder : LiveSeriesCatalogBuilder) (pair : InternedKeyValue)
    : Except IoError LiveSeriesCatalogBuilder := do
  let names ← builder.names.join pair.key rowRevision builder.generation nameOverflows
  require ((builder.postings.get ⟨pair.key, pair.value, series⟩).isNone)
    (invalidData "live catalog attempted to insert a duplicate posting membership")
  let postings ← builder.postings.insert ⟨pair.key, pair.value, series⟩
    ⟨rowRevision, builder.generation⟩
  let values ← builder.values.join ⟨pair.key, pair.value⟩ rowRevision builder.generation
    valueOverflows
  return { builder with names, postings, values }

variable (builder : LiveSeriesCatalogBuilder)

def activate (series : SeriesRef) : Except IoError LiveSeriesCatalogBuilder := do
  require ((builder.active.get series).isNone)
    (invalidData "live catalog attempted to activate a duplicate series")
  let rowRevision := series.get.toNat + 1
  require (rowRevision ≤ builder.labels.revision) (outsideRevision series builder.labels)
  let (seriesId, pairs) ←
    validatedRow H builder.labels.toVersionedFlatInternedLabelSetSnapshot series
  let active ← builder.active.insert series ⟨seriesId, rowRevision, builder.generation⟩
  pairs.foldlM (activateLabel series rowRevision) { builder with active }

def retireLabel (builder : LiveSeriesCatalogBuilder) (pair : InternedKeyValue)
    : Except IoError LiveSeriesCatalogBuilder := do
  let names ← builder.names.leave pair.key
    (invalidData "live catalog name membership disappeared during retirement")
    (invalidData "live catalog name membership could not be retired")
  let postings ← builder.postings.take ⟨pair.key, pair.value, series⟩
    (invalidData "live catalog posting disappeared during retirement")
  let values ← builder.values.leave ⟨pair.key, pair.value⟩
    (invalidData "live catalog value membership disappeared during retirement")
    (invalidData "live catalog value membership could not be retired")
  return { builder with names, postings, values }

def retire (series : SeriesRef) : Except IoError LiveSeriesCatalogBuilder := do
  require ((builder.active.get series).isSome)
    (invalidData "live catalog attempted to retire an inactive series")
  let (_, pairs) ← validatedRow H builder.labels.toVersionedFlatInternedLabelSetSnapshot series
  let active ← builder.active.take series
    (invalidData "live catalog active entry disappeared during retirement")
  pairs.foldlM (retireLabel series) { builder with active }

def reconcileSeries : List SeriesRef → List SeriesRef → LiveSeriesCatalogBuilder →
    Except IoError LiveSeriesCatalogBuilder
  | [], [], candidate => .ok candidate
  | left :: current, [], candidate => do
    let candidate ← candidate.retire H left
    reconcileSeries current [] candidate
  | [], right :: target, candidate => do
    let candidate ← candidate.activate H right
    reconcileSeries [] target candidate
  | left :: current, right :: target, candidate =>
    if left < right then do
      let candidate ← candidate.retire H left
      reconcileSeries current (right :: target) candidate
    else if right < left then do
      let candidate ← candidate.activate H right
      reconcileSeries (left :: current) target candidate
    else reconcileSeries current target candidate
  termination_by current target => current.length + target.length

def activeSeriesRefs (catalog : LiveSeriesCatalog) (entries reserve : Option IoError) :
    Except IoError (List SeriesRef) := do
  let entries ← catalog.active.inOrder entries
  if let some error := reserve then throw error
  return entries.map Prod.fst

variable (samples : LiveSampleStore)

def requiresRevision (labels : CatalogLabels) : IoError := invalidData
  s!"candidate samples require catalog revision {samples.requiredCatalogRevision}, but snapshot revision is {labels.revision}"

def reconciled (faults : CatalogFaults) : Except IoError LiveSeriesCatalogBuilder := do
  require (samples.requiredCatalogRevision ≤ builder.labels.revision)
    (requiresRevision samples builder.labels)
  let target ← samples.activeSeriesRefs faults.samples
  let current ← builder.activeSeriesRefs faults.entries faults.current
  reconcileSeries H current target builder

def reconcileSampleStore (faults : CatalogFaults) : Mutation LiveSeriesCatalogBuilder Unit :=
  match builder.reconciled H samples faults with
  | .ok candidate => (.ok (), candidate)
  | .error error => (.error error, builder)

end

def finish (builder : LiveSeriesCatalogBuilder) : Except IoError LiveSeriesCatalog := do
  builder.active.validateRoot
  builder.postings.validateRoot
  builder.names.validateRoot
  builder.values.validateRoot
  return builder

end LiveSeriesCatalog

end Chronoxide
