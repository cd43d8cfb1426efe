import Chronoxide.Collections.Ascending
import Chronoxide.Head.FragmentKey
import Chronoxide.Program.Faults
import Mathlib.Data.Nat.Size

/-! Descriptors of the runs of one key (`frozen/persistent.rs`): trees of concatenations whose leaves
are runs, kept as the digits of a binary counter. A traversal validates every node again. -/

namespace Chronoxide
open Codec Faults List Nat

def maxDescriptorDepth : Nat := 64

def checkedSum (left right : Nat) (subject : String) : Except IoError Nat := do
  require (left + right < 2 ^ 64)
    (invalidData ("descriptor " ++ subject ++ " count overflows u64"))
  return left + right

structure DescriptorIdentity where
  key : LiveSampleKey
  codec : String
  deriving DecidableEq, Repr

structure DescriptorMeta where
  identity : DescriptorIdentity
  first : RecordedSampleOrder
  last : RecordedSampleOrder
  samples : Nat
  blocks : Nat
  leaves : Nat
  nodes : Nat
  depth : Nat
  deriving DecidableEq, Repr

inductive DescriptorNode
  | leaf (info : DescriptorMeta) (fragment : SharedFragment)
  | concat (info : DescriptorMeta) (older newer : DescriptorNode)

structure LeafTraversal where
  previousLast : Option RecordedSampleOrder
  samples : Nat
  blocks : Nat
  leaves : Nat
  nodes : Nat
  output : List FrozenRunRef

namespace DescriptorNode

def info : DescriptorNode → DescriptorMeta
  | leaf info _ => info
  | concat info _ _ => info

def newLeaf (identity : DescriptorIdentity) (fragment : SharedFragment) (run : FrozenSeriesKey)
    (orderRange : RecordedSampleOrderRange) : Except IoError DescriptorNode := do
  require (run.series = identity.key.series ∧ run.kind = identity.key.kind)
    (invalidData "frozen run does not match its persistent sample identity")
  require (run.codec = identity.codec)
    (invalidData "frozen run codec does not match its descriptor identity")
  return leaf ⟨identity, orderRange.first, orderRange.last, run.samples, run.blocks, 1, 1, 1⟩
    fragment

def newConcat (older newer : DescriptorNode) : Except IoError DescriptorNode := do
  require (older.info.identity = newer.info.identity)
    (invalidData "descriptor concat identities or codecs do not match")
  require (¬newer.info.first.le older.info.last)
    (invalidData "descriptor sequence ranges overlap or are out of order")
  let depth := max older.info.depth newer.info.depth + 1
  require (depth < 256) (invalidData "descriptor depth overflows u8")
  require (depth ≤ maxDescriptorDepth)
    (invalidData "descriptor depth exceeds the u64 publication bound")
  let samples ← checkedSum older.info.samples newer.info.samples "sample"
  let blocks ← checkedSum older.info.blocks newer.info.blocks "block"
  let leaves ← checkedSum older.info.leaves newer.info.leaves "leaf"
  let childNodes ← checkedSum older.info.nodes newer.info.nodes "node"
  require (childNodes + 1 < 2 ^ 64) (invalidData "descriptor node count overflows u64")
  return concat ⟨older.info.identity, older.info.first, newer.info.last, samples, blocks, leaves,
    childNodes + 1, depth⟩ older newer

def validateLeaf (info : DescriptorMeta) (fragment : SharedFragment) : Except IoError Unit := do
  require (info.depth = 1 ∧ info.leaves = 1 ∧ info.nodes = 1 ∧ info.first.le info.last)
    (invalidData "invalid descriptor leaf metadata")
  match fragment.runExact info.identity.key.series info.identity.key.kind with
  | none => throw (invalidData "descriptor leaf references a missing frozen run")
  | some run =>
    require (run.codec = info.identity.codec ∧ run.samples = info.samples ∧
        run.blocks = info.blocks ∧ fragment.startMs = info.identity.key.fragment.startMs ∧
        fragment.endMs = info.identity.key.fragment.endMs ∧
        fragment.lane = info.identity.key.fragment.lane)
      (invalidData "descriptor leaf metadata does not match its immutable fragment")

def validateConcat (info older newer : DescriptorMeta) : Except IoError Unit := do
  require (older.identity = newer.identity ∧ info.identity = older.identity ∧
      ¬newer.first.le older.last ∧ info.first = older.first ∧ info.last = newer.last)
    (invalidData "invalid descriptor concat identity or order")
  let expectedDepth := max older.depth newer.depth + 1
  require (expectedDepth < 256) (invalidData "descriptor depth overflows u8")
  let childNodes ← checkedSum older.nodes newer.nodes "node"
  require (childNodes + 1 < 2 ^ 64) (invalidData "descriptor node count overflows u64")
  let samples ← checkedSum older.samples newer.samples "sample"
  let blocks ← checkedSum older.blocks newer.blocks "block"
  let leaves ← checkedSum older.leaves newer.leaves "leaf"
  require (info.depth = expectedDepth ∧ info.depth ≤ maxDescriptorDepth ∧
      info.samples = samples ∧ info.blocks = blocks ∧ info.leaves = leaves ∧
      info.nodes = childNodes + 1)
    (invalidData "invalid descriptor concat aggregate metadata")

def size : DescriptorNode → Nat
  | leaf .. => 1
  | concat _ older newer => older.size + newer.size + 1

def visitNodes (capacity : Nat) :
    Nat → List DescriptorNode → LeafTraversal → Except IoError LeafTraversal
  | 0, _, seen => .ok seen
  | _ + 1, [], seen => .ok seen
  | fuel + 1, node :: stack, seen => do
    require (seen.nodes + 1 < 2 ^ 64)
      (invalidData "traversed descriptor node count overflows u64")
    match node with
    | leaf info fragment =>
      validateLeaf info fragment
      require (¬seen.previousLast.any (info.first.le ·))
        (invalidData "descriptor leaves are not in strict sequence order")
      let samples ← checkedSum seen.samples info.samples "sample"
      let blocks ← checkedSum seen.blocks info.blocks "block"
      let leaves ← checkedSum seen.leaves 1 "leaf"
      visitNodes capacity fuel stack ⟨some info.last, samples, blocks, leaves, seen.nodes + 1,
        seen.output ++ [⟨info.identity.key, info.first, info.last, fragment⟩]⟩
    | concat info older newer =>
      validateConcat info older.info newer.info
      require (stack.length + 2 ≤ capacity)
        (invalidData "descriptor traversal exceeds validated root depth")
      visitNodes capacity fuel (older :: newer :: stack) { seen with nodes := seen.nodes + 1 }

/-- Older leaves before newer ones. `fault` is the failure, if any, to allocate the stack. -/
def appendLeaves (node : DescriptorNode) (fault : Option IoError) (output : List FrozenRunRef) :
    Except IoError (List FrozenRunRef) := do
  require (node.info.depth ≠ 0 ∧ node.info.depth ≤ maxDescriptorDepth)
    (invalidData "invalid descriptor root depth")
  if let some error := fault then throw error
  let seen ← visitNodes node.info.depth node.size [node] ⟨none, 0, 0, 0, 0, output⟩
  require (seen.samples = node.info.samples ∧ seen.blocks = node.info.blocks ∧
      seen.leaves = node.info.leaves ∧ seen.nodes = node.info.nodes ∧
      ∀ leaf ∈ seen.output.getLast?, leaf.last = node.info.last)
    (invalidData "descriptor traversal totals disagree with root metadata")
  return seen.output

end DescriptorNode

/-- The roots by level, the lowest level first. -/
structure RunLevels where
  identity : DescriptorIdentity
  roots : List (Nat × DescriptorNode)
  publications : Nat

namespace RunLevels

def one (leaf : DescriptorNode) : RunLevels := ⟨leaf.info.identity, [(0, leaf)], 1⟩

/-- The carry of the binary counter: the roots are searched by level, and they are sorted. `fault` is
the failure, if any, to reserve a root. -/
def carryInto (fault : Option IoError) (level : Nat) (carry : DescriptorNode) :
    List (Nat × DescriptorNode) → Except IoError (List (Nat × DescriptorNode))
  | [] =>
    match fault with
    | some error => .error error
    | none => .ok [(level, carry)]
  | (existing, older) :: roots =>
    if existing = level then do
      let carry ← DescriptorNode.newConcat older carry
      require (level + 1 < 256)
        (invalidData "descriptor level overflows the u64 publication bound")
      require (level + 1 < maxDescriptorDepth)
        (invalidData "descriptor carry exceeds the u64 publication bound")
      carryInto fault (level + 1) carry roots
    else if existing < level then do
      let roots ← carryInto fault level carry roots
      return (existing, older) :: roots
    else
      match fault with
      | some error => .error error
      | none => .ok ((level, carry) :: (existing, older) :: roots)

def visibleBound (publications : Nat) : Nat := publications.size

def append (levels : RunLevels) (leaf : DescriptorNode) (fault : Option IoError) :
    Except IoError RunLevels := do
  require (levels.identity = leaf.info.identity)
    (invalidData "new descriptor leaf does not match existing sample key")
  require (¬levels.roots.any fun root => leaf.info.first.le root.2.info.last)
    (invalidData "new descriptor leaf does not follow every visible root")
  require (levels.publications + 1 < 2 ^ 64)
    (invalidData "descriptor publication count overflows u64")
  let roots ← carryInto fault 0 leaf levels.roots
  require (roots.length ≤ visibleBound (levels.publications + 1))
    (invalidData "visible descriptor roots exceed the logarithmic bound")
  return ⟨levels.identity, roots, levels.publications + 1⟩

def visitRoots (identity : DescriptorIdentity) (faults : Nat → Option IoError) :
    Option Nat → Option RecordedSampleOrder → List FrozenRunRef → List (Nat × DescriptorNode) →
      Except IoError (List FrozenRunRef)
  | _, _, output, [] => .ok output
  | previousLevel, last, output, (level, root) :: roots => do
    require (level < maxDescriptorDepth ∧ root.info.depth = level + 1)
      (invalidData "descriptor root level disagrees with its validated depth")
    require (root.info.identity = identity)
      (invalidData "descriptor root identity disagrees with its level map")
    require (¬previousLevel.any (· ≤ level))
      (invalidData "visible descriptor levels are not unique and descending")
    require (¬last.any (root.info.first.le ·))
      (invalidData "visible descriptor roots are not in sequence order")
    let output ← root.appendLeaves (faults level) output
    visitRoots identity faults (some level) (some root.info.last) output roots

def appendLeaves (levels : RunLevels) (faults : Nat → Option IoError)
    (output : List FrozenRunRef) : Except IoError (List FrozenRunRef) := do
  let outputStart := output.length
  let output ← visitRoots levels.identity faults none none output levels.roots.reverse
  require (output.length - outputStart = levels.publications)
    (invalidData "descriptor publication count disagrees with traversed leaves")
  require (levels.roots ≠ [] ∧ levels.roots.length ≤ visibleBound levels.publications)
    (invalidData "visible descriptor roots exceed the logarithmic bound")
  return output

end RunLevels

theorem checkedSum_ok {left right sum : Nat} {subject : String} :
    checkedSum left right subject = .ok sum ↔ left + right < 2 ^ 64 ∧ sum = left + right := by
  simp only [checkedSum, require_bind_ok, except_pure_ok]
  exact and_congr_right fun _ => eq_comm

variable {fragment : SharedFragment}

namespace DescriptorNode

def leafRefs : DescriptorNode → List FrozenRunRef
  | leaf info fragment => [⟨info.identity.key, info.first, info.last, fragment⟩]
  | concat _ older newer => older.leafRefs ++ newer.leafRefs

def Valid : DescriptorNode → Prop
  | leaf info fragment => validateLeaf info fragment = .ok ()
  | concat info older newer =>
      older.Valid ∧ newer.Valid ∧ validateConcat info older.info newer.info = .ok ()

theorem validateLeaf_ok {info : DescriptorMeta} :
    validateLeaf info fragment = .ok () ↔
      (info.depth = 1 ∧ info.leaves = 1 ∧ info.nodes = 1 ∧ info.first.le info.last) ∧
      ∃ run, fragment.runExact info.identity.key.series info.identity.key.kind = some run ∧
        run.codec = info.identity.codec ∧ run.samples = info.samples ∧
        run.blocks = info.blocks ∧ fragment.startMs = info.identity.key.fragment.startMs ∧
        fragment.endMs = info.identity.key.fragment.endMs ∧
        fragment.lane = info.identity.key.fragment.lane := by
  unfold validateLeaf
  simp only [require_bind_ok]
  cases fragment.runExact info.identity.key.series info.identity.key.kind with
  | none => simp [throw, throwThe, MonadExceptOf.throw]
  | some run => simp

structure Joins (info older newer : DescriptorMeta) : Prop where
  identities_eq : older.identity = newer.identity
  identity_eq : info.identity = older.identity
  follows : newer.first.le older.last = false
  first_eq : info.first = older.first
  last_eq : info.last = newer.last
  depth_eq : info.depth = max older.depth newer.depth + 1
  depth_le : info.depth ≤ maxDescriptorDepth
  samples_eq : info.samples = older.samples + newer.samples
  samples_lt : info.samples < 2 ^ 64
  blocks_eq : info.blocks = older.blocks + newer.blocks
  blocks_lt : info.blocks < 2 ^ 64
  leaves_eq : info.leaves = older.leaves + newer.leaves
  leaves_lt : info.leaves < 2 ^ 64
  nodes_eq : info.nodes = older.nodes + newer.nodes + 1
  nodes_lt : info.nodes < 2 ^ 64

theorem validateConcat_ok {info older newer : DescriptorMeta} :
    validateConcat info older newer = .ok () ↔ Joins info older newer := by
  unfold validateConcat
  simp only [except_bind_ok, require_ok, exists_const, checkedSum_ok]
  constructor
  · rintro ⟨⟨h₁, h₂, h₃, h₄, h₅⟩, hdepth, nodes, ⟨hnodes, rfl⟩, hlt, _, ⟨hsamples, rfl⟩, _,
      ⟨hblocks, rfl⟩, _, ⟨hleaves, rfl⟩, h₆, h₇, h₈, h₉, h₁₀, h₁₁⟩
    exact ⟨h₁, h₂, by simpa using h₃, h₄, h₅, h₆, h₇, h₈, h₈ ▸ hsamples, h₉, h₉ ▸ hblocks, h₁₀,
      h₁₀ ▸ hleaves, h₁₁, h₁₁ ▸ hlt⟩
  intro h
  have hdepth : max older.depth newer.depth + 1 < 256 := by
    have := h.depth_le
    rw [h.depth_eq, maxDescriptorDepth] at this
    omega
  have hnodes := h.nodes_lt
  rw [h.nodes_eq] at hnodes
  exact ⟨⟨h.identities_eq, h.identity_eq, by simp [h.follows], h.first_eq, h.last_eq⟩, hdepth, _,
    ⟨by omega, rfl⟩, hnodes, _, ⟨h.samples_eq ▸ h.samples_lt, rfl⟩, _,
    ⟨h.blocks_eq ▸ h.blocks_lt, rfl⟩, _, ⟨h.leaves_eq ▸ h.leaves_lt, rfl⟩, h.depth_eq,
    h.depth_le, h.samples_eq, h.blocks_eq, h.leaves_eq, h.nodes_eq⟩

variable {node older newer : DescriptorNode}

theorem Valid.depth_pos (h : node.Valid) :
    1 ≤ node.info.depth ∧ node.info.depth ≤ maxDescriptorDepth := by
  cases node with
  | leaf info fragment =>
    obtain ⟨⟨hdepth, -⟩, -⟩ := validateLeaf_ok.mp h
    rw [DescriptorNode.info, hdepth]
    decide
  | concat info older newer =>
    have hjoins := validateConcat_ok.mp h.2.2
    exact ⟨by rw [DescriptorNode.info, hjoins.depth_eq]; omega, hjoins.depth_le⟩

theorem Valid.counts_lt (h : node.Valid) :
    node.info.samples < 2 ^ 64 ∧ node.info.blocks < 2 ^ 64 ∧ node.info.leaves < 2 ^ 64 ∧
      node.info.nodes < 2 ^ 64 := by
  cases node with
  | leaf info fragment =>
    obtain ⟨⟨-, hleaves, hnodes, -⟩, run, hrun, -, hsamples, hblocks, -⟩ := validateLeaf_ok.mp h
    have hcounted := fragment.counted run (mem_of_find?_eq_some hrun)
    rw [DescriptorNode.info, hleaves, hnodes, ← hsamples, ← hblocks]
    exact ⟨hcounted.1, hcounted.2, by decide, by decide⟩
  | concat info older newer =>
    have hjoins := validateConcat_ok.mp h.2.2
    exact ⟨hjoins.samples_lt, hjoins.blocks_lt, hjoins.leaves_lt, hjoins.nodes_lt⟩

theorem newConcat_ok (holder : older.Valid) (hnewer : newer.Valid)
    (hok : newConcat older newer = .ok node) :
    node.Valid ∧ node.leafRefs = older.leafRefs ++ newer.leafRefs ∧
      Joins node.info older.info newer.info := by
  unfold newConcat at hok
  simp only [except_bind_ok, require_ok, exists_const, checkedSum_ok, except_pure_ok] at hok
  obtain ⟨hidentity, hfollows, -, hdepth, _, ⟨hsamples, rfl⟩, _, ⟨hblocks, rfl⟩, _,
    ⟨hleaves, rfl⟩, _, ⟨-, rfl⟩, hnodes, rfl⟩ := hok
  have hjoins : Joins ⟨older.info.identity, older.info.first, newer.info.last,
      older.info.samples + newer.info.samples, older.info.blocks + newer.info.blocks,
      older.info.leaves + newer.info.leaves, older.info.nodes + newer.info.nodes + 1,
      max older.info.depth newer.info.depth + 1⟩ older.info newer.info :=
    ⟨hidentity, rfl, by simpa using hfollows, rfl, rfl, rfl, hdepth, rfl, hsamples, rfl, hblocks,
      rfl, hleaves, rfl, hnodes⟩
  exact ⟨⟨holder, hnewer, validateConcat_ok.mpr hjoins⟩, rfl, hjoins⟩

def LeafTraversal.visit (seen : LeafTraversal) (node : DescriptorNode) : LeafTraversal :=
  ⟨some node.info.last, seen.samples + node.info.samples, seen.blocks + node.info.blocks,
    seen.leaves + node.info.leaves, seen.nodes + node.info.nodes, seen.output ++ node.leafRefs⟩

def LeafTraversal.Holds (seen : LeafTraversal) (info : DescriptorMeta) : Prop :=
  seen.samples + info.samples < 2 ^ 64 ∧ seen.blocks + info.blocks < 2 ^ 64 ∧
    seen.leaves + info.leaves < 2 ^ 64 ∧ seen.nodes + info.nodes < 2 ^ 64

theorem visitNodes_leaf {info : DescriptorMeta}
    (h : (leaf info fragment).Valid) (capacity fuel : Nat) (stack : List DescriptorNode)
    {seen : LeafTraversal} (hholds : LeafTraversal.Holds seen info)
    (hlast : ∀ last ∈ seen.previousLast, info.first.le last = false) :
    visitNodes capacity (fuel + 1) (leaf info fragment :: stack) seen =
      visitNodes capacity fuel stack (LeafTraversal.visit seen (leaf info fragment)) := by
  obtain ⟨⟨-, hone, hnode, -⟩, -⟩ := validateLeaf_ok.mp h
  have hvalid : validateLeaf info fragment = .ok () := h
  obtain ⟨hsamples, hblocks, hleaves, hnodes⟩ := hholds
  rw [hone] at hleaves
  rw [hnode] at hnodes
  have hprevious : ¬seen.previousLast.any (info.first.le ·) := by
    simpa [Option.any_eq_true] using hlast
  simp only [visitNodes, require_pos hnodes, hvalid, require_pos hprevious,
    checkedSum_ok.mpr ⟨hsamples, rfl⟩, checkedSum_ok.mpr ⟨hblocks, rfl⟩,
    checkedSum_ok.mpr ⟨hleaves, rfl⟩, bind, Except.bind, LeafTraversal.visit,
    DescriptorNode.info, leafRefs, hone, hnode]

theorem visitNodes_valid (h : node.Valid) {capacity : Nat} {stack : List DescriptorNode}
    {seen : LeafTraversal} (fuel : Nat) (hholds : LeafTraversal.Holds seen node.info)
    (hlast : ∀ last ∈ seen.previousLast, node.info.first.le last = false)
    (hroom : stack.length + node.info.depth ≤ capacity) :
    visitNodes capacity (fuel + node.size) (node :: stack) seen =
      visitNodes capacity fuel stack (LeafTraversal.visit seen node) := by
  induction node generalizing fuel stack seen with
  | leaf info fragment => exact visitNodes_leaf h capacity fuel stack hholds hlast
  | concat info older newer ihOlder ihNewer =>
    obtain ⟨holder, hnewer, hvalid⟩ := h
    have hjoins := validateConcat_ok.mp hvalid
    have hdepth := hjoins.depth_eq
    have holderDepth := holder.depth_pos
    have hnewerDepth := hnewer.depth_pos
    obtain ⟨hsamples, hblocks, hleaves, hnodes⟩ := hholds
    simp only [DescriptorNode.info] at hsamples hblocks hleaves hnodes hlast hroom
    rw [hjoins.samples_eq] at hsamples
    rw [hjoins.blocks_eq] at hblocks
    rw [hjoins.leaves_eq] at hleaves
    rw [hjoins.nodes_eq] at hnodes
    have hcount : seen.nodes + 1 < 2 ^ 64 := by omega
    have hpush : stack.length + 2 ≤ capacity := by omega
    have hsize : fuel + (concat info older newer).size = fuel + newer.size + older.size + 1 := by
      rw [size]
      omega
    rw [hsize]
    simp only [visitNodes, require_pos hcount, hvalid, require_pos hpush, bind, Except.bind]
    -- the older part is on top of the newer one
    refine (ihOlder holder (fuel + newer.size) ?_ ?_ ?_).trans
      ((ihNewer hnewer fuel ?_ ?_ ?_).trans ?_)
    · simp only [LeafTraversal.Holds]
      omega
    · rw [← hjoins.first_eq]
      exact hlast
    · rw [length_cons]
      omega
    · simp only [LeafTraversal.Holds, LeafTraversal.visit]
      omega
    · intro last hmem
      rw [← Option.mem_some_iff.mp hmem]
      exact hjoins.follows
    · omega
    congr 1
    simp only [LeafTraversal.visit, DescriptorNode.info, leafRefs, hjoins.samples_eq,
      hjoins.blocks_eq, hjoins.leaves_eq, hjoins.nodes_eq, hjoins.last_eq, append_assoc,
      LeafTraversal.mk.injEq, true_and, and_true]
    omega

theorem Valid.getLast?_leafRefs (h : node.Valid) :
    ∃ run, node.leafRefs.getLast? = some run ∧ run.last = node.info.last := by
  induction node with
  | leaf info fragment => exact ⟨_, rfl, rfl⟩
  | concat info older newer _ ihNewer =>
    obtain ⟨run, hrun, hlast⟩ := ihNewer h.2.1
    refine ⟨run, ?_, ?_⟩
    · rw [leafRefs, getLast?_append, hrun]
      rfl
    · rw [hlast]
      exact (validateConcat_ok.mp h.2.2).last_eq.symm

theorem Valid.appendLeaves_yields (h : node.Valid) (fault : Option IoError)
    (output : List FrozenRunRef) :
    Yields (fault = some ·) (node.appendLeaves fault output) (output ++ node.leafRefs) := by
  obtain ⟨hpos, hmax⟩ := h.depth_pos
  have hvisit : visitNodes node.info.depth (0 + node.size) [node] ⟨none, 0, 0, 0, 0, output⟩ =
      .ok (LeafTraversal.visit ⟨none, 0, 0, 0, 0, output⟩ node) := by
    refine (visitNodes_valid h 0 ?_ (by simp) (by simp)).trans rfl
    simp only [LeafTraversal.Holds, zero_add]
    exact h.counts_lt
  rw [zero_add] at hvisit
  obtain ⟨run, hrun, hlast⟩ := h.getLast?_leafRefs
  have hend : ∀ leaf ∈ (output ++ node.leafRefs).getLast?, leaf.last = node.info.last := by
    rw [getLast?_append, hrun]
    intro leaf hleaf
    rw [← Option.mem_some_iff.mp hleaf, hlast]
  refine (yields_require ⟨one_le_iff_ne_zero.mp hpos, hmax⟩).bind ?_
  cases fault with
  | some error => exact yields_error rfl
  | none =>
    refine Yields.bind (.inl hvisit) ((yields_require ?_).bind yields_ok)
    simp only [LeafTraversal.visit, zero_add, true_and]
    exact hend

end DescriptorNode

namespace RunLevels

def refsOf (roots : List (Nat × DescriptorNode)) : List FrozenRunRef :=
  roots.reverse.flatMap fun root => root.2.leafRefs

def leafRefs (levels : RunLevels) : List FrozenRunRef := refsOf levels.roots

/-- A root of a level is a full tree of descriptors with one identity. -/
structure RootAt (identity : DescriptorIdentity) (root : Nat × DescriptorNode) : Prop where
  valid : root.2.Valid
  identity_eq : root.2.info.identity = identity
  depth_eq : root.2.info.depth = root.1 + 1
  length_eq : root.2.leafRefs.length = 2 ^ root.1

/-- Roots of increasing levels, each older than those before it. -/
structure RootsOf (identity : DescriptorIdentity) (roots : List (Nat × DescriptorNode)) : Prop where
  at_level : ∀ root ∈ roots, RootAt identity root
  levels : roots.Pairwise (·.1 < ·.1)
  follows : roots.Pairwise fun newer older => newer.2.info.first.le older.2.info.last = false

structure Sound (levels : RunLevels) : Prop where
  roots : RootsOf levels.identity levels.roots
  nonempty : levels.roots ≠ []
  publications : levels.publications = levels.leafRefs.length
  bounded : levels.publications < 2 ^ 64

variable {identity : DescriptorIdentity} {roots roots' : List (Nat × DescriptorNode)}
  {levels levels' : RunLevels}

theorem refsOf_cons (root : Nat × DescriptorNode) (roots : List (Nat × DescriptorNode)) :
    refsOf (root :: roots) = refsOf roots ++ root.2.leafRefs := by
  rw [refsOf, reverse_cons, flatMap_append, flatMap_singleton, ← refsOf]

variable {root : Nat × DescriptorNode}

theorem length_leafRefs_le (h : root ∈ roots) : root.2.leafRefs.length ≤ (refsOf roots).length := by
  induction roots with
  | nil => cases h
  | cons head roots ih =>
    rw [refsOf_cons, length_append]
    rcases mem_cons.mp h with rfl | h
    · exact le_add_left _ _
    · exact (ih h).trans (le_add_right _ _)

theorem newLeaf_ok {run : FrozenSeriesKey}
    {orderRange : RecordedSampleOrderRange} {node : DescriptorNode} (hrun : run ∈ fragment.runs)
    (hordered : orderRange.first.le orderRange.last = true)
    (hstart : fragment.startMs = identity.key.fragment.startMs)
    (hend : fragment.endMs = identity.key.fragment.endMs)
    (hlane : fragment.lane = identity.key.fragment.lane)
    (hok : DescriptorNode.newLeaf identity fragment run orderRange = .ok node) :
    RootAt identity (0, node) ∧
      node.leafRefs = [⟨identity.key, orderRange.first, orderRange.last, fragment⟩] ∧
      node.info.first = orderRange.first := by
  unfold DescriptorNode.newLeaf at hok
  simp only [require_bind_ok, except_pure_ok] at hok
  obtain ⟨⟨hseries, hkind⟩, hcodec, rfl⟩ := hok
  refine ⟨⟨DescriptorNode.validateLeaf_ok.mpr ⟨⟨rfl, rfl, rfl, hordered⟩, run, ?_, hcodec, rfl, rfl,
    hstart, hend, hlane⟩, rfl, rfl, rfl⟩, rfl, rfl⟩
  rw [← hseries, ← hkind]
  exact SharedFragment.runExact_of_mem hrun

variable {leaf : DescriptorNode}

theorem one_sound (h : RootAt identity (0, leaf)) :
    (one leaf).Sound ∧ (one leaf).leafRefs = leaf.leafRefs ∧ (one leaf).identity = identity := by
  have hrefs : (one leaf).leafRefs = leaf.leafRefs := by simp [leafRefs, refsOf, one]
  refine ⟨⟨⟨?_, pairwise_singleton _ _, pairwise_singleton _ _⟩, by simp [one], ?_, ?_⟩,
    hrefs, h.identity_eq⟩
  · intro root hroot
    rw [mem_singleton.mp hroot, one, h.identity_eq]
    exact h
  · rw [hrefs, h.length_eq]
    rfl
  · simp [one]

theorem RootsOf.tail (h : RootsOf identity (root :: roots)) : RootsOf identity roots :=
  ⟨fun r hr => h.at_level r (mem_cons_of_mem _ hr), h.levels.of_cons, h.follows.of_cons⟩

theorem RootAt.join {level : Nat} {older newer joined : DescriptorNode}
    (holder : RootAt identity (level, older)) (hnewer : RootAt identity (level, newer))
    (h : DescriptorNode.newConcat older newer = .ok joined) :
    RootAt identity (level + 1, joined) ∧ joined.leafRefs = older.leafRefs ++ newer.leafRefs ∧
      joined.info.first = older.info.first := by
  obtain ⟨hvalid, hrefs, hjoins⟩ := DescriptorNode.newConcat_ok holder.valid hnewer.valid h
  refine ⟨⟨hvalid, hjoins.identity_eq.trans holder.identity_eq, ?_, ?_⟩, hrefs, hjoins.first_eq⟩
  · rw [hjoins.depth_eq, holder.depth_eq, hnewer.depth_eq, max_self]
  · rw [hrefs, length_append, holder.length_eq, hnewer.length_eq, pow_succ, mul_two]

variable {fault : Option IoError}

theorem carryInto_ok {level : Nat} {carry : DescriptorNode}
    (hroots : RootsOf identity roots) (hcarry : RootAt identity (level, carry))
    (hnewer : ∀ root ∈ roots, carry.info.first.le root.2.info.last = false)
    (hlevels : ∀ root ∈ roots, level ≤ root.1)
    (hok : carryInto fault level carry roots = .ok roots') :
    RootsOf identity roots' ∧ refsOf roots' = refsOf roots ++ carry.leafRefs ∧ roots' ≠ [] := by
  induction roots generalizing level carry with
  | nil =>
    unfold carryInto at hok
    split at hok
    · cases hok
    obtain rfl := Except.ok.inj hok
    refine ⟨⟨?_, pairwise_singleton _ _, pairwise_singleton _ _⟩, ?_, by simp⟩
    · intro root hroot
      rw [mem_singleton.mp hroot]
      exact hcarry
    · rw [refsOf_cons]
  | cons root roots ih =>
    obtain ⟨existing, older⟩ := root
    have hrest := hroots.tail
    obtain ⟨hat, hless, hfollows⟩ := hroots
    obtain ⟨hless, htail⟩ := pairwise_cons.mp hless
    obtain ⟨hafter, hfollows⟩ := pairwise_cons.mp hfollows
    unfold carryInto at hok
    split at hok
    · rename_i hlevel
      subst hlevel
      simp only [except_bind_ok, require_ok, exists_const] at hok
      obtain ⟨joined, hconcat, -, -, hok⟩ := hok
      obtain ⟨hjoined, hrefs, hfirst⟩ := (hat _ mem_cons_self).join hcarry hconcat
      obtain ⟨hresult, hresultRefs, hne⟩ := ih hrest hjoined (hfirst.symm ▸ hafter) hless hok
      refine ⟨hresult, ?_, hne⟩
      rw [hresultRefs, hrefs, refsOf_cons, append_assoc]
    split at hok
    · rename_i hlt
      exact absurd (hlevels _ mem_cons_self) (not_le.mpr hlt)
    split at hok
    · cases hok
    obtain rfl := Except.ok.inj hok
    refine ⟨⟨?_, ?_, ?_⟩, by rw [refsOf_cons], by simp⟩
    · exact forall_mem_cons.mpr ⟨hcarry, hat⟩
    · have hlow : level < existing := by omega
      exact pairwise_cons.mpr ⟨forall_mem_cons.mpr
        ⟨hlow, fun root hroot => hlow.trans (hless root hroot)⟩,
        pairwise_cons.mpr ⟨hless, htail⟩⟩
    · exact pairwise_cons.mpr ⟨hnewer, pairwise_cons.mpr ⟨hafter, hfollows⟩⟩

theorem carry_sound (h : levels.Sound) (hleaf : RootAt levels.identity (0, leaf))
    (hnewer : ∀ root ∈ levels.roots, leaf.info.first.le root.2.info.last = false)
    (hbounded : levels.publications + 1 < 2 ^ 64)
    (hcarry : carryInto fault 0 leaf levels.roots = .ok roots) :
    Sound ⟨levels.identity, roots, levels.publications + 1⟩ ∧
      refsOf roots = levels.leafRefs ++ leaf.leafRefs := by
  obtain ⟨hroots, hrefs, hne⟩ := carryInto_ok h.roots hleaf hnewer (fun _ _ => zero_le _) hcarry
  have hleafRefs : leaf.leafRefs.length = 1 := hleaf.length_eq
  refine ⟨⟨hroots, hne, ?_, hbounded⟩, hrefs⟩
  change levels.publications + 1 = (refsOf roots).length
  rw [hrefs, length_append, hleafRefs, h.publications]
  rfl

theorem append_ok (h : levels.Sound)
    (hleaf : RootAt levels.identity (0, leaf)) (hok : levels.append leaf fault = .ok levels') :
    levels'.Sound ∧ levels'.leafRefs = levels.leafRefs ++ leaf.leafRefs ∧
      levels'.identity = levels.identity := by
  unfold append at hok
  simp only [except_bind_ok, require_ok, exists_const, except_pure_ok] at hok
  obtain ⟨-, hfollows, hbounded, roots, hcarry, -, rfl⟩ := hok
  obtain ⟨hsound, hrefs⟩ := carry_sound h hleaf (by simpa using hfollows) hbounded hcarry
  exact ⟨hsound, hrefs, rfl⟩

theorem visitRoots_yields {faults : Nat → Option IoError} {previousLevel : Option Nat}
    {last : Option RecordedSampleOrder} {output : List FrozenRunRef}
    (hat : ∀ root ∈ roots, RootAt identity root)
    (hlow : ∀ root ∈ roots, root.1 < maxDescriptorDepth)
    (hlevels : roots.Pairwise (·.1 > ·.1))
    (hfollows : roots.Pairwise fun older newer => newer.2.info.first.le older.2.info.last = false)
    (hprevious : ∀ level ∈ previousLevel, ∀ root ∈ roots, root.1 < level)
    (hlast : ∀ order ∈ last, ∀ root ∈ roots, root.2.info.first.le order = false) :
    Yields (fun error => ∃ level, faults level = some error)
      (visitRoots identity faults previousLevel last output roots)
      (output ++ roots.flatMap fun root => root.2.leafRefs) := by
  induction roots generalizing previousLevel last output with
  | nil =>
    rw [flatMap_nil, append_nil]
    exact yields_ok
  | cons root roots ih =>
    obtain ⟨level, root⟩ := root
    have hroot := hat _ mem_cons_self
    obtain ⟨hless, htail⟩ := pairwise_cons.mp hlevels
    obtain ⟨hafter, hfollows⟩ := pairwise_cons.mp hfollows
    refine (yields_require ⟨hlow _ mem_cons_self, hroot.depth_eq⟩).bind ?_
    refine (yields_require hroot.identity_eq).bind ?_
    refine (yields_require ?_).bind ?_
    · rw [Option.any_eq_true]
      rintro ⟨previous, hmem, hle⟩
      have := hprevious previous hmem _ mem_cons_self
      exact absurd (of_decide_eq_true hle) (not_le.mpr this)
    refine (yields_require ?_).bind ?_
    · rw [Option.any_eq_true]
      rintro ⟨order, hmem, hle⟩
      rw [hlast order hmem _ mem_cons_self] at hle
      cases hle
    refine ((hroot.valid.appendLeaves_yields (faults level) output).mono
      fun _ herror => ⟨level, herror⟩).bind ?_
    rw [flatMap_cons, ← append_assoc]
    refine ih (fun r hr => hat r (mem_cons_of_mem _ hr))
      (fun r hr => hlow r (mem_cons_of_mem _ hr)) htail hfollows ?_ ?_
    · intro previous hmem r hr
      rw [← Option.mem_some_iff.mp hmem]
      exact hless r hr
    · intro order hmem r hr
      rw [← Option.mem_some_iff.mp hmem]
      exact hafter r hr

theorem Sound.level_lt_size (h : levels.Sound)
    (hroot : root ∈ levels.roots) : root.1 < levels.publications.size := by
  rw [lt_size, h.publications, ← (h.roots.at_level root hroot).length_eq]
  exact length_leafRefs_le hroot

theorem Sound.leafRefs_ne_nil (h : levels.Sound) : levels.leafRefs ≠ [] := by
  obtain ⟨root, hroot⟩ := exists_mem_of_ne_nil _ h.nonempty
  have hle := length_leafRefs_le hroot
  rw [(h.roots.at_level root hroot).length_eq] at hle
  exact ne_nil_of_length_pos ((Nat.two_pow_pos _).trans_le hle)

theorem Sound.length_roots_le (h : levels.Sound) :
    levels.roots.length ≤ levels.publications.size := by
  have hlt : ∀ level ∈ levels.roots.map Prod.fst, level < levels.publications.size :=
    forall_mem_map.mpr fun root hroot => h.level_lt_size hroot
  have hle := Ascending.length_le (pairwise_map.mpr h.roots.levels) hlt
  rwa [length_map] at hle

theorem Sound.appendLeaves_yields (h : levels.Sound) (faults : Nat → Option IoError)
    (output : List FrozenRunRef) :
    Yields (fun error => ∃ level, faults level = some error) (levels.appendLeaves faults output)
      (output ++ levels.leafRefs) := by
  have hlow : ∀ root ∈ levels.roots, root.1 < maxDescriptorDepth := by
    intro root hroot
    exact (h.level_lt_size hroot).trans_le (Nat.size_le.mpr h.bounded)
  refine Yields.bind (visitRoots_yields
    (fun root hroot => h.roots.at_level root (mem_reverse.mp hroot))
    (fun root hroot => hlow root (mem_reverse.mp hroot))
    (pairwise_reverse.mpr h.roots.levels) (pairwise_reverse.mpr h.roots.follows)
    (by simp) (by simp)) ?_
  refine (yields_require ?_).bind ((yields_require ⟨h.nonempty, h.length_roots_le⟩).bind yields_ok)
  rw [length_append, Nat.add_sub_cancel_left, h.publications, leafRefs, refsOf]

end RunLevels

end Chronoxide
