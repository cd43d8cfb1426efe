import Chronoxide.Head.Descriptor
import Mathlib.Data.Nat.BitIndices

/-! Runs of one key published one after the other (`RunLevels` of `frozen/persistent.rs`). The
levels count them in binary. -/

namespace Chronoxide
open Codec Faults List

variable (measure : FrozenSeriesKey → Nat)

def totalOf (refs : List FrozenRunRef) : Nat :=
  (refs.map fun ref =>
    ((ref.fragment.runExact ref.key.series ref.key.kind).map measure).getD 0).sum

theorem totalOf_append (refs refs' : List FrozenRunRef) :
    totalOf measure (refs ++ refs') = totalOf measure refs + totalOf measure refs' := by
  rw [totalOf, map_append, sum_append, totalOf, totalOf]

namespace DescriptorNode

variable {node older newer : DescriptorNode}

theorem Valid.totals (h : node.Valid) :
    node.info.samples = totalOf (·.samples) node.leafRefs ∧
      node.info.blocks = totalOf (·.blocks) node.leafRefs ∧
      node.info.leaves = node.leafRefs.length ∧
      node.info.nodes + 1 = 2 * node.leafRefs.length := by
  induction node with
  | leaf info fragment =>
    obtain ⟨⟨-, hleaves, hnodes, -⟩, run, hrun, -, hsamples, hblocks, -⟩ := validateLeaf_ok.mp h
    simp [totalOf, leafRefs, DescriptorNode.info, hrun, hsamples, hblocks, hleaves, hnodes]
  | concat info older newer ihOlder ihNewer =>
    obtain ⟨holder, hnewer, hvalid⟩ := h
    have hjoins := validateConcat_ok.mp hvalid
    obtain ⟨hsamples, hblocks, hleaves, hnodes⟩ := ihOlder holder
    obtain ⟨hsamples', hblocks', hleaves', hnodes'⟩ := ihNewer hnewer
    rw [leafRefs, totalOf_append, totalOf_append, length_append, ← hsamples, ← hblocks,
      ← hsamples', ← hblocks']
    refine ⟨hjoins.samples_eq, hjoins.blocks_eq, ?_, ?_⟩
    · rw [DescriptorNode.info, hjoins.leaves_eq, hleaves, hleaves']
    · rw [DescriptorNode.info, hjoins.nodes_eq]
      omega

theorem exists_newConcat (holder : older.Valid) (hnewer : newer.Valid)
    (hidentity : older.info.identity = newer.info.identity)
    (hfollows : newer.info.first.le older.info.last = false)
    (hdepth : max older.info.depth newer.info.depth + 1 ≤ maxDescriptorDepth)
    (hsamples : older.info.samples + newer.info.samples < 2 ^ 64)
    (hblocks : older.info.blocks + newer.info.blocks < 2 ^ 64)
    (hcount : older.leafRefs.length + newer.leafRefs.length ≤ 2 ^ 63) :
    ∃ node, newConcat older newer = .ok node := by
  obtain ⟨-, -, hleaves, hnodes⟩ := holder.totals
  obtain ⟨-, -, hleaves', hnodes'⟩ := hnewer.totals
  have hnot : ¬newer.info.first.le older.info.last := by simp [hfollows]
  have hbyte : max older.info.depth newer.info.depth + 1 < 256 := by
    rw [maxDescriptorDepth] at hdepth
    omega
  have hleafSum : older.info.leaves + newer.info.leaves < 2 ^ 64 := by omega
  have hnodeSum : older.info.nodes + newer.info.nodes < 2 ^ 64 := by omega
  have hnodeCount : older.info.nodes + newer.info.nodes + 1 < 2 ^ 64 := by omega
  simp only [newConcat, require_pos hidentity, require_pos hnot, require_pos hbyte,
    require_pos hdepth, checkedSum_ok.mpr ⟨hsamples, rfl⟩, checkedSum_ok.mpr ⟨hblocks, rfl⟩,
    checkedSum_ok.mpr ⟨hleafSum, rfl⟩, checkedSum_ok.mpr ⟨hnodeSum, rfl⟩,
    require_pos hnodeCount, bind, Except.bind]
  exact ⟨_, rfl⟩

end DescriptorNode

namespace RunLevels

variable {identity : DescriptorIdentity} {roots : List (Nat × DescriptorNode)} {levels : RunLevels}

structure Room (roots : List (Nat × DescriptorNode)) (carry : DescriptorNode) : Prop where
  count : (refsOf roots).length + carry.leafRefs.length < 2 ^ 64
  samples : totalOf (·.samples) (refsOf roots ++ carry.leafRefs) < 2 ^ 64
  blocks : totalOf (·.blocks) (refsOf roots ++ carry.leafRefs) < 2 ^ 64

theorem exists_carryInto {level : Nat} {carry : DescriptorNode} (hroots : RootsOf identity roots)
    (hcarry : RootAt identity (level, carry))
    (hnewer : ∀ root ∈ roots, carry.info.first.le root.2.info.last = false)
    (hlevels : ∀ root ∈ roots, level ≤ root.1) (hroom : Room roots carry) :
    ∃ roots', carryInto none level carry roots = .ok roots' := by
  induction roots generalizing level carry with
  | nil => exact ⟨_, rfl⟩
  | cons root roots ih =>
    obtain ⟨existing, older⟩ := root
    obtain ⟨hcount, hsamples, hblocks⟩ := hroom
    simp only [refsOf_cons, length_append, totalOf_append] at hcount hsamples hblocks
    have holder : RootAt identity (existing, older) := hroots.at_level _ mem_cons_self
    have hlow : level ≤ existing := hlevels _ mem_cons_self
    rw [carryInto]
    by_cases hlevel : existing = level
    · subst hlevel
      obtain ⟨hless, -⟩ := pairwise_cons.mp hroots.levels
      obtain ⟨hafter, -⟩ := pairwise_cons.mp hroots.follows
      have holderLength : older.leafRefs.length = 2 ^ existing := holder.length_eq
      have hcarryLength : carry.leafRefs.length = 2 ^ existing := hcarry.length_eq
      have hpow : 2 ^ (existing + 1) < 2 ^ 64 := by
        omega
      have hdepth : existing + 1 < maxDescriptorDepth :=
        (Nat.pow_lt_pow_iff_right (by decide)).mp hpow
      have hhalf : 2 ^ (existing + 1) ≤ 2 ^ 63 :=
        Nat.pow_le_pow_right (by decide) (Nat.le_of_lt_succ hdepth)
      have holderValid : older.Valid := holder.valid
      have hcarryValid : carry.Valid := hcarry.valid
      obtain ⟨hs, hb, -, -⟩ := holderValid.totals
      obtain ⟨hs', hb', -, -⟩ := hcarryValid.totals
      obtain ⟨joined, hjoin⟩ := DescriptorNode.exists_newConcat holderValid hcarryValid
        (holder.identity_eq.trans hcarry.identity_eq.symm) (hnewer _ mem_cons_self)
        (by rw [holder.depth_eq, hcarry.depth_eq, Nat.max_self]; exact hdepth) (by omega)
        (by omega) (by rw [Nat.pow_succ] at hhalf; omega)
      obtain ⟨hjoined, hrefs, hfirst⟩ := holder.join hcarry hjoin
      have hroom' : Room roots joined := by
        refine ⟨?_, ?_, ?_⟩ <;> simp only [hrefs, length_append, totalOf_append] <;> omega
      obtain ⟨roots', hroots'⟩ := ih hroots.tail hjoined (hfirst.symm ▸ hafter) hless hroom'
      refine ⟨roots', ?_⟩
      have hbyte : existing + 1 < 256 := hdepth.trans (by decide)
      simp only [if_true, hjoin, require_pos hbyte, require_pos hdepth]
      exact hroots'
    · rw [if_neg hlevel, if_neg (Nat.not_lt.mpr hlow)]
      exact ⟨_, rfl⟩

theorem exists_append {leaf : DescriptorNode} (h : levels.Sound)
    (hleaf : RootAt levels.identity (0, leaf))
    (hnewer : ∀ root ∈ levels.roots, leaf.info.first.le root.2.info.last = false)
    (hroom : Room levels.roots leaf) : ∃ levels', levels.append leaf none = .ok levels' := by
  obtain ⟨roots, hcarry⟩ :=
    exists_carryInto h.roots hleaf hnewer (fun _ _ => Nat.zero_le _) hroom
  have hbounded : levels.publications + 1 < 2 ^ 64 := by
    have hone : leaf.leafRefs.length = 1 := hleaf.length_eq
    have hcount := hroom.count
    rwa [hone, ← RunLevels.leafRefs, ← h.publications] at hcount
  obtain ⟨hsound, -⟩ := carry_sound h hleaf hnewer hbounded hcarry
  have hnot : ¬levels.roots.any fun root => leaf.info.first.le root.2.info.last := by
    simpa using hnewer
  simp only [append, require_pos hleaf.identity_eq.symm, require_pos hnot, require_pos hbounded,
    hcarry, bind, Except.bind]
  have hvisible : roots.length ≤ visibleBound (levels.publications + 1) := hsound.length_roots_le
  rw [require_pos hvisible]
  exact ⟨_, rfl⟩

theorem Sound.levels_eq (h : levels.Sound) :
    levels.roots.map Prod.fst = levels.publications.bitIndices := by
  have hsum : ∀ roots : List (Nat × DescriptorNode), (∀ root ∈ roots, RootAt levels.identity root) →
      ((roots.map Prod.fst).map (2 ^ ·)).sum = (refsOf roots).length := by
    intro roots hat
    induction roots with
    | nil => rfl
    | cons root roots ih =>
      rw [map_cons, map_cons, sum_cons, ih fun r hr => hat r (.tail _ hr),
        refsOf_cons, length_append, (hat root mem_cons_self).length_eq, Nat.add_comm]
  have hsorted : (levels.roots.map Prod.fst).SortedLT :=
    (pairwise_map.mpr h.roots.levels).sortedLT
  rw [h.publications, leafRefs, ← hsum _ h.roots.at_level, Nat.bitIndices_sum_map_two_pow hsorted]

theorem Sound.exists_root_last (h : levels.Sound) {ref : FrozenRunRef}
    (hlast : levels.leafRefs.getLast? = some ref) :
    ∃ root ∈ levels.roots, root.2.info.last = ref.last := by
  obtain ⟨root, roots, hroots⟩ := exists_cons_of_ne_nil h.nonempty
  have hmem : root ∈ levels.roots := hroots ▸ mem_cons_self
  obtain ⟨newest, hnewest, heq⟩ := (h.roots.at_level root hmem).valid.getLast?_leafRefs
  rw [leafRefs, hroots, refsOf_cons, getLast?_append, hnewest] at hlast
  exact ⟨root, hmem, Option.some.inj hlast ▸ heq.symm⟩

end RunLevels

structure PublishedRun (identity : DescriptorIdentity) where
  fragment : SharedFragment
  run : FrozenSeriesKey
  orderRange : RecordedSampleOrderRange
  mem : run ∈ fragment.runs
  ordered : orderRange.first.le orderRange.last = true
  identified : run.series = identity.key.series ∧ run.kind = identity.key.kind ∧
    run.codec = identity.codec
  placed : fragment.startMs = identity.key.fragment.startMs ∧
    fragment.endMs = identity.key.fragment.endMs ∧ fragment.lane = identity.key.fragment.lane

namespace PublishedRun

variable {identity : DescriptorIdentity} {levels : RunLevels}
  {runs : List (PublishedRun identity)} {run : PublishedRun identity}

variable (run)

def ref : FrozenRunRef :=
  ⟨identity.key, run.orderRange.first, run.orderRange.last, run.fragment⟩

def appendTo (levels : Option RunLevels) (run : PublishedRun identity) :
    Except IoError (Option RunLevels) := do
  let leaf ← DescriptorNode.newLeaf identity run.fragment run.run run.orderRange
  match levels with
  | none => return some (.one leaf)
  | some levels => return some (← levels.append leaf none)

def Follows (newer older : PublishedRun identity) : Prop :=
  newer.orderRange.first.le older.orderRange.last = false

theorem exists_leaf : ∃ leaf,
    DescriptorNode.newLeaf identity run.fragment run.run run.orderRange = .ok leaf ∧
      RunLevels.RootAt identity (0, leaf) ∧ leaf.leafRefs = [run.ref] ∧
      leaf.info.first = run.orderRange.first := by
  obtain ⟨hseries, hkind, hcodec⟩ := run.identified
  have hleaf : ∃ leaf, DescriptorNode.newLeaf identity run.fragment run.run run.orderRange =
      .ok leaf := by
    simp only [DescriptorNode.newLeaf, require_pos (And.intro hseries hkind), require_pos hcodec,
      bind, Except.bind]
    exact ⟨_, rfl⟩
  obtain ⟨leaf, hleaf⟩ := hleaf
  obtain ⟨hstart, hend, hlane⟩ := run.placed
  exact ⟨leaf, hleaf, RunLevels.newLeaf_ok run.mem run.ordered hstart hend hlane hleaf⟩

variable {run}

structure Counted (levels : RunLevels) (runs : List (PublishedRun identity)) : Prop where
  sound : levels.Sound
  identity_eq : levels.identity = identity
  refs_eq : levels.leafRefs = runs.map ref

theorem totalOf_refs (measure : FrozenSeriesKey → Nat) (runs : List (PublishedRun identity)) :
    totalOf measure (runs.map ref) = (runs.map fun run => measure run.run).sum := by
  rw [totalOf, map_map]
  congr 2
  funext run
  obtain ⟨hseries, hkind, -⟩ := run.identified
  have hrun := SharedFragment.runExact_of_mem run.mem
  rw [hseries, hkind] at hrun
  simp [ref, hrun]

structure Fits (runs : List (PublishedRun identity)) : Prop where
  count : runs.length < 2 ^ 64
  samples : (runs.map (·.run.samples)).sum < 2 ^ 64
  blocks : (runs.map (·.run.blocks)).sum < 2 ^ 64

theorem Counted.exists_append (h : Counted levels runs) (hfits : Fits (runs ++ [run]))
    (hfollows : ∀ older ∈ runs, run.Follows older) :
    ∃ levels', run.appendTo (some levels) = .ok (some levels') ∧
      Counted levels' (runs ++ [run]) := by
  obtain ⟨leaf, hnew, hleaf, hrefs, hfirst⟩ := run.exists_leaf
  have hleaf' : RunLevels.RootAt levels.identity (0, leaf) := h.identity_eq.symm ▸ hleaf
  have hall : RunLevels.refsOf levels.roots ++ leaf.leafRefs = (runs ++ [run]).map ref := by
    rw [← RunLevels.leafRefs, h.refs_eq, hrefs, map_append, map_singleton]
  have hroom : RunLevels.Room levels.roots leaf := by
    refine ⟨?_, ?_, ?_⟩
    · rw [← length_append, hall, length_map]
      exact hfits.count
    · rw [hall, totalOf_refs]
      exact hfits.samples
    · rw [hall, totalOf_refs]
      exact hfits.blocks
  have hnewer : ∀ root ∈ levels.roots, leaf.info.first.le root.2.info.last = false := by
    intro root hroot
    obtain ⟨newest, hnewest, hlast⟩ :=
      (h.sound.roots.at_level root hroot).valid.getLast?_leafRefs
    have hmem : newest ∈ levels.leafRefs :=
      mem_flatMap.mpr ⟨root, mem_reverse.mpr hroot, mem_of_getLast? hnewest⟩
    rw [h.refs_eq] at hmem
    obtain ⟨older, holder, rfl⟩ := mem_map.mp hmem
    rw [hfirst, ← hlast]
    exact hfollows older holder
  obtain ⟨levels', happend⟩ := RunLevels.exists_append h.sound hleaf' hnewer hroom
  obtain ⟨hsound, hleafRefs, hidentity⟩ := RunLevels.append_ok h.sound hleaf' happend
  refine ⟨levels', ?_, hsound, hidentity.trans h.identity_eq, hleafRefs.trans hall⟩
  simp [appendTo, hnew, happend, bind, Except.bind, pure, Except.pure]

theorem Counted.append_fails (h : Counted levels runs) {previous : PublishedRun identity}
    (hlast : runs.getLast? = some previous) (hbehind : ¬run.Follows previous) :
    run.appendTo (some levels) =
      .error (invalidData "new descriptor leaf does not follow every visible root") := by
  obtain ⟨leaf, hnew, hleaf, -, hfirst⟩ := run.exists_leaf
  obtain ⟨root, hroot, heq⟩ := @RunLevels.Sound.exists_root_last _ h.sound previous.ref
    (by rw [h.refs_eq, getLast?_map, hlast]; rfl)
  have hany : levels.roots.any fun root => leaf.info.first.le root.2.info.last := by
    refine any_eq_true.mpr ⟨root, hroot, ?_⟩
    rw [hfirst, heq]
    exact Bool.not_eq_false _ ▸ hbehind
  have hidentity : levels.identity = leaf.info.identity :=
    h.identity_eq.trans hleaf.identity_eq.symm
  simp [appendTo, hnew, RunLevels.append, bind, Except.bind, require, if_pos hidentity,
    if_neg (not_not.mpr hany)]

theorem exists_counted (hne : runs ≠ []) (hfits : Fits runs)
    (hfollows : runs.Pairwise fun older newer => newer.Follows older) :
    ∃ levels, runs.foldlM appendTo none = .ok (some levels) ∧ Counted levels runs := by
  induction runs using reverseRecOn with
  | nil => exact absurd rfl hne
  | append_singleton runs run ih =>
    rw [foldlM_append]
    by_cases hnil : runs = []
    · subst hnil
      obtain ⟨leaf, hnew, hleaf, hrefs, -⟩ := run.exists_leaf
      obtain ⟨hsound, hleafRefs, hidentity⟩ := RunLevels.one_sound hleaf
      refine ⟨.one leaf, ?_, hsound, hidentity, hleafRefs.trans hrefs⟩
      simp [appendTo, hnew, bind, Except.bind, pure, Except.pure]
    have hpart : Fits runs := by
      obtain ⟨hcount, hsamples, hblocks⟩ := hfits
      simp only [length_append, map_append, sum_append] at hcount hsamples hblocks
      exact ⟨by omega, by omega, by omega⟩
    obtain ⟨hbefore, -, hlast⟩ := pairwise_append.mp hfollows
    obtain ⟨levels, hrun, hcounted⟩ := ih hnil hpart hbefore
    obtain ⟨levels', happend, hcounted'⟩ :=
      hcounted.exists_append hfits fun older holder => hlast older holder run (by simp)
    refine ⟨levels', ?_, hcounted'⟩
    rw [hrun]
    simp [happend, bind, Except.bind, pure, Except.pure]

end PublishedRun

open PublishedRun in
/-- Runs that follow one another are taken in while their counts fit; the levels are the bits of
their number, and a traversal gives the runs back in order. -/
theorem runLevels_count_in_binary {identity : DescriptorIdentity}
    {runs : List (PublishedRun identity)} (hne : runs ≠ [])
    (hfollows : runs.Pairwise fun older newer => newer.Follows older) (hfits : Fits runs) :
    ∃ levels, runs.foldlM appendTo none = .ok (some levels) ∧
      levels.roots.map Prod.fst = runs.length.bitIndices ∧
      (∀ root ∈ levels.roots, root.2.info.leaves = 2 ^ root.1 ∧ root.2.info.depth = root.1 + 1) ∧
      (∀ output, levels.appendLeaves (fun _ => none) output = .ok (output ++ runs.map ref)) ∧
      ∀ run previous : PublishedRun identity, runs.getLast? = some previous →
        ¬run.Follows previous →
        run.appendTo (some levels) =
          .error (invalidData "new descriptor leaf does not follow every visible root") := by
  obtain ⟨levels, hrun, hcounted⟩ := exists_counted hne hfits hfollows
  refine ⟨levels, hrun, ?_, ?_, ?_, ?_⟩
  · rw [hcounted.sound.levels_eq, hcounted.sound.publications, hcounted.refs_eq, length_map]
  · intro root hroot
    have hat := hcounted.sound.roots.at_level root hroot
    exact ⟨hat.valid.totals.2.2.1.trans hat.length_eq, hat.depth_eq⟩
  · intro output
    rcases hcounted.sound.appendLeaves_yields (fun _ => none) output with hok | ⟨_, ⟨_, hfault⟩, -⟩
    · rw [hok, hcounted.refs_eq]
    · cases hfault
  · intro run previous hlast hbehind
    exact hcounted.append_fails hlast hbehind

def loneIdentity : DescriptorIdentity := ⟨⟨⟨⟨"topic", 0⟩, 0, 10, .inOrder⟩, ⟨1⟩, .float⟩, "raw"⟩

def loneRun (samples ordinal : UInt64) : PublishedRun loneIdentity where
  fragment := ⟨0, 0, 10, .inOrder, [⟨⟨1⟩, .float, "raw", samples.toNat, 1⟩],
    List.pairwise_singleton _ _,
    List.forall_mem_singleton.mpr ⟨samples.toNat_lt, show 1 < 2 ^ 64 by decide⟩⟩
  run := ⟨⟨1⟩, .float, "raw", samples.toNat, 1⟩
  orderRange := ⟨⟨0, ordinal⟩, ⟨0, ordinal⟩⟩
  mem := List.mem_singleton.mpr rfl
  ordered := by simp [RecordedSampleOrder.le]
  identified := ⟨rfl, rfl, rfl⟩
  placed := ⟨rfl, rfl, rfl⟩

/-- The samples of two runs that are joined are counted in 64 bits. -/
theorem runLevels_sample_overflow :
    (loneRun 0x8000000000000000 1).Follows (loneRun 0x8000000000000000 0) ∧
      [loneRun 0x8000000000000000 0, loneRun 0x8000000000000000 1].foldlM PublishedRun.appendTo none =
        .error (invalidData ("descriptor " ++ "sample" ++ " count overflows u64")) :=
  ⟨rfl, rfl⟩

theorem runLevels_count_in_binary_three :
    ∃ levels, [loneRun 5 0, loneRun 5 1, loneRun 5 2].foldlM PublishedRun.appendTo none =
        .ok (some levels) ∧ levels.roots.map Prod.fst = [0, 1] := by
  have hfollows : [loneRun 5 0, loneRun 5 1, loneRun 5 2].Pairwise
      fun older newer => newer.Follows older := by
    simp [PublishedRun.Follows, loneRun, RecordedSampleOrder.le]
  obtain ⟨levels, hrun, hlevels, -⟩ :=
    runLevels_count_in_binary (by simp) hfollows ⟨by decide, by decide, by decide⟩
  refine ⟨levels, hrun, hlevels.trans ?_⟩
  exact (Nat.bitIndices_two_mul_add_one 1).trans (by rw [Nat.bitIndices_one]; rfl)

end Chronoxide
