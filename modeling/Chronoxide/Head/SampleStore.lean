import Chronoxide.Collections.AvlMap
import Chronoxide.Collections.SortedSet
import Chronoxide.Head.Descriptor

/-! The persistent sample store of the live head (`frozen/persistent.rs`) and its builder. -/

namespace Chronoxide
open Codec Faults AvlMap SortedSet

def sampleMapChecks : Checks IoError where
  heightBound := 2 ^ 16
  entryBound := 2 ^ 64
  heightOverflows := invalidData "persistent sample-map height overflows u16"
  sumOverflows := invalidData "descriptor map entry count overflows u64"
  entriesOverflow := invalidData "persistent sample-map entry count overflows u64"
  leftHeavy := invalidData "left-heavy sample map has no left child"
  rightHeavy := invalidData "right-heavy sample map has no right child"
  rotateLeft := invalidData "cannot rotate sample map left without a right child"
  rotateRight := invalidData "cannot rotate sample map right without a left child"
  successor := invalidData "persistent sample-map successor disappeared during removal"
  node := invalidData "persistent sample-map node metadata or AVL balance is invalid"
  traversalHeight := invalidData "sample-map traversal exceeds validated root height"
  underflow := invalidData "sample-map traversal stack underflow"
  unordered := invalidData "persistent sample-map keys are not strictly ordered"
  entryCount := invalidData "sample-map traversal disagrees with root entry count"
  room := room_of_bounds

abbrev SampleMap := PersistentMap sampleMapChecks LiveSampleKey RunLevels

/-- The builder has the same fields, and a finished store takes them over. -/
structure LiveSampleStore where
  root : SampleMap
  fragmentCount : Nat
  requiredCatalogRevision : Nat
  fragmentIdentities : List FrozenFragmentIdentity

abbrev LiveSampleStoreBuilder := LiveSampleStore

structure StoreFaults where
  reserve : Option IoError
  map : Option IoError
  leaves : LiveSampleKey → Nat → Option IoError
  append : LiveSampleKey → Option IoError

def StoreFaults.Raises (faults : StoreFaults) (error : IoError) : Prop :=
  faults.reserve = some error ∨ faults.map = some error ∨
    ∃ key level, faults.leaves key level = some error

namespace LiveSampleStore

def new : LiveSampleStoreBuilder := ⟨.empty (by decide), 0, 0, []⟩

variable (store : LiveSampleStore)

def fromStore : LiveSampleStoreBuilder := store

variable (builder : LiveSampleStoreBuilder)

def finish : LiveSampleStore := builder

def listSeries (entries : List (LiveSampleKey × RunLevels)) : List SeriesRef :=
  entries.foldl (fun series e =>
    if series.getLast? = some e.1.series then series else series ++ [e.1.series]) []

def activeSeriesRefs (faults : StoreFaults) : Except IoError (List SeriesRef) := do
  if let some error := faults.reserve then throw error
  let entries ← store.root.inOrder faults.map
  return dedup ((listSeries entries).mergeSort (· ≤ ·))

def orderedRuns (startMs endMs : UInt64) (faults : StoreFaults) :
    Except IoError (List FrozenRunRef) :=
  if endMs < startMs then .ok []
  else do
    let entries ← store.root.inOrder faults.map
    let runs ← (entries.filter fun e => e.1.fragment.overlaps startMs endMs).foldlM
      (fun runs e => e.2.appendLeaves (faults.leaves e.1) runs) []
    return runs.mergeSort fun left right => left.readOrderKey ≤ right.readOrderKey

def descriptorIdentity (root : SampleMap) (key : LiveSampleKey) (codec : String) :
    Except IoError DescriptorIdentity :=
  match root.get key with
  | some levels =>
    if levels.identity.codec ≠ codec then
      .error (invalidData "sample codec changed across frozen publications")
    else .ok levels.identity
  | none => .ok ⟨key, codec⟩

def levelsWith (root : SampleMap) (key : LiveSampleKey) (leaf : DescriptorNode)
    (fault : Option IoError) : Except IoError RunLevels :=
  match root.get key with
  | some levels => levels.append leaf fault
  | none => .ok (RunLevels.one leaf)

def insertRun (identity : FrozenFragmentIdentity) (fragment : SharedFragment)
    (faults : StoreFaults) (candidate : SampleMap × Nat) (run : FrozenSeriesKey) :
    Except IoError (SampleMap × Nat) := do
  let key : LiveSampleKey := ⟨identity.key, run.series, run.kind⟩
  let descriptor ← descriptorIdentity candidate.1 key run.codec
  let leaf ← DescriptorNode.newLeaf descriptor fragment run identity.orderRange
  let levels ← levelsWith candidate.1 key leaf (faults.append key)
  let root ← candidate.1.insert key levels
  return (root, max candidate.2 (run.series.get.toNat + 1))

/-- The candidate of `insert_fragment`, which the builder becomes at the end of the call. -/
def insertedFragment (identity : FrozenFragmentIdentity) (fragment : SharedFragment)
    (faults : StoreFaults) :
    Except IoError LiveSampleStoreBuilder := do
  require (fragment.startMs = identity.key.startMs ∧ fragment.endMs = identity.key.endMs ∧
      fragment.lane = identity.key.lane)
    (invalidData "frozen fragment bytes do not match their persistent identity")
  if fragment.runs.isEmpty then return builder
  require (identity ∉ builder.fragmentIdentities) (invalidData
    "persistent sample root contains a duplicate frozen fragment identity")
  let candidate ← fragment.runs.foldlM (insertRun identity fragment faults)
    (builder.root, builder.requiredCatalogRevision)
  require (builder.fragmentCount + 1 < 2 ^ 64)
    (invalidData "frozen fragment count overflows u64")
  return ⟨candidate.1, builder.fragmentCount + 1, candidate.2,
    unionSorted builder.fragmentIdentities [identity]⟩

def insertFragment (identity : FrozenFragmentIdentity) (fragment : SharedFragment)
    (faults : StoreFaults) : Mutation LiveSampleStoreBuilder Unit :=
  match builder.insertedFragment identity fragment faults with
  | .ok candidate => (.ok (), candidate)
  | .error error => (.error error, builder)

def removeKey (root : SampleMap) (key : LiveSampleKey) : Except IoError SampleMap := do
  let (root, removed) ← root.remove key
  require removed
    (invalidData "sample key disappeared while constructing a retirement root")
  return root

def retiredRange (leaf : FrozenRunRef) : RecordedSampleOrder × RecordedSampleOrder × Nat :=
  (leaf.first, leaf.last, leaf.fragment.address)

def removedFragment (fragment : FrozenFragmentKey) (faults : StoreFaults)
    : Except IoError (Nat × LiveSampleStoreBuilder) := do
  let entries ← builder.root.inOrder faults.map
  let retired := entries.filter fun e => e.1.fragment = fragment
  let retiredRanges ← retired.foldlM (fun ranges e => do
    let leaves ← e.2.appendLeaves (faults.leaves e.1) []
    return ranges ++ leaves.map retiredRange) []
  let root ← (retired.map Prod.fst).foldlM removeKey builder.root
  -- the ranges are collected in a set
  let retiredCount := retiredRanges.dedup.length
  require (retiredCount ≤ builder.fragmentCount)
    (invalidData "retired fragment count exceeds the store total")
  require ((builder.fragmentIdentities.filter fun identity => identity.key = fragment).length =
      retiredCount)
    (invalidData
      "persistent sample fragment certificate disagrees with retired descriptor leaves")
  return (retired.length, ⟨root, builder.fragmentCount - retiredCount,
    builder.requiredCatalogRevision,
    builder.fragmentIdentities.filter fun identity => identity.key ≠ fragment⟩)

def removeFragmentKey (fragment : FrozenFragmentKey) (faults : StoreFaults)
    : Mutation LiveSampleStoreBuilder Nat :=
  match builder.removedFragment fragment faults with
  | .ok (keys, candidate) => (.ok keys, candidate)
  | .error error => (.error error, builder)

def validateExactFragmentCertificate (exactFragments : List FrozenFragmentIdentity)
    (exactMismatch : String) : Except IoError Unit := do
  require (store.fragmentIdentities.length = store.fragmentCount) (invalidData
    "persistent sample fragment certificate disagrees with the store count")
  require (store.root.root.isNil = (store.fragmentCount == 0)) (invalidData
    "persistent sample root emptiness disagrees with its fragment certificate")
  require (store.fragmentIdentities = exactFragments) (invalidData exactMismatch)

def validateExactFragmentIdentities (exactFragments : List FrozenFragmentIdentity) : Except IoError Unit :=
  store.validateExactFragmentCertificate exactFragments
    "persistent sample root does not exactly match the supplied fragment identities"

def clearIfExactFragments (exactFragments : List FrozenFragmentIdentity) :
    Mutation LiveSampleStoreBuilder Unit :=
  match builder.validateExactFragmentCertificate exactFragments
      "final empty sample root does not exactly cover every committed fragment" with
  | .error error => (.error error, builder)
  | .ok () => (.ok (), { builder with
      root := .empty (by decide), fragmentCount := 0, fragmentIdentities := [] })

end LiveSampleStore

end Chronoxide
