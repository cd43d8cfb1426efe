import Chronoxide.Head.OrderSet
import Chronoxide.Head.Window
import Mathlib.Data.Prod.Lex
import Mathlib.Data.String.Basic

/-! The identity of a frozen fragment and of its runs (`frozen/persistent.rs`), in the order of their
fields. -/

namespace Chronoxide
open Codec RecordedSampleOrder

instance : LinearOrder SeriesRef :=
  LinearOrder.lift' (fun seriesRef => seriesRef.get.toNat) fun a b h => by
    cases a
    cases b
    exact congrArg SeriesRef.mk (UInt32.toNat_inj.mp h)

theorem SampleKind.rank_inj {a b : SampleKind} (h : a.rank = b.rank) : a = b := by
  cases a <;> cases b <;> first | rfl | cases h

def FrozenHeadLane.rank : FrozenHeadLane → ℕ
  | .inOrder => 0
  | .outOfOrder => 1

theorem FrozenHeadLane.rank_inj {a b : FrozenHeadLane} (h : a.rank = b.rank) : a = b := by
  cases a <;> cases b <;> first | rfl | cases h

structure LivePartitionKey where
  topic : String
  partition : Int
  deriving DecidableEq, Repr

structure FrozenFragmentKey where
  partition : LivePartitionKey
  startMs : UInt64
  endMs : UInt64
  lane : FrozenHeadLane
  deriving DecidableEq, Repr

namespace FrozenFragmentKey

def new (partition : LivePartitionKey) (startMs endMs : UInt64) (lane : FrozenHeadLane) :
    Except IoError FrozenFragmentKey := do
  require (startMs < endMs) (invalidData "frozen fragment range must be non-empty")
  return ⟨partition, startMs, endMs, lane⟩

def overlaps (key : FrozenFragmentKey) (startMs endMs : UInt64) : Bool :=
  startMs < key.endMs && key.startMs ≤ endMs

abbrev SortKey := String ×ₗ ℤ ×ₗ ℕ ×ₗ ℕ ×ₗ ℕ

def sortKey (key : FrozenFragmentKey) : SortKey :=
  toLex (key.partition.topic, toLex (key.partition.partition,
    toLex (key.startMs.toNat, toLex (key.endMs.toNat, key.lane.rank))))

theorem sortKey_inj {a b : FrozenFragmentKey} (h : a.sortKey = b.sortKey) : a = b := by
  obtain ⟨⟨topic, partition⟩, startMs, endMs, lane⟩ := a
  obtain ⟨⟨topic', partition'⟩, startMs', endMs', lane'⟩ := b
  simp only [sortKey, EmbeddingLike.apply_eq_iff_eq, Prod.mk.injEq, UInt64.toNat_inj] at h
  obtain ⟨rfl, rfl, rfl, rfl, hlane⟩ := h
  rw [FrozenHeadLane.rank_inj hlane]

end FrozenFragmentKey

structure LiveSampleKey where
  fragment : FrozenFragmentKey
  series : SeriesRef
  kind : SampleKind
  deriving DecidableEq, Repr

namespace LiveSampleKey

def sortKey (key : LiveSampleKey) : FrozenFragmentKey.SortKey ×ₗ ℕ ×ₗ ℕ :=
  toLex (key.fragment.sortKey, toLex (key.series.get.toNat, key.kind.rank))

theorem sortKey_inj {a b : LiveSampleKey} (h : a.sortKey = b.sortKey) : a = b := by
  obtain ⟨fragment, ⟨series⟩, kind⟩ := a
  obtain ⟨fragment', ⟨series'⟩, kind'⟩ := b
  simp only [sortKey, EmbeddingLike.apply_eq_iff_eq, Prod.mk.injEq, UInt32.toNat_inj] at h
  obtain ⟨hfragment, rfl, hkind⟩ := h
  rw [FrozenFragmentKey.sortKey_inj hfragment, SampleKind.rank_inj hkind]

end LiveSampleKey

instance : LinearOrder LiveSampleKey :=
  LinearOrder.lift' LiveSampleKey.sortKey fun _ _ => LiveSampleKey.sortKey_inj

structure FrozenFragmentIdentity where
  key : FrozenFragmentKey
  orderRange : RecordedSampleOrderRange
  ordered : orderRange.first.le orderRange.last = true
  deriving DecidableEq

namespace FrozenFragmentIdentity

def sortKey (identity : FrozenFragmentIdentity) : FrozenFragmentKey.SortKey ×ₗ ℕ ×ₗ ℕ :=
  toLex (identity.key.sortKey,
    toLex (identity.orderRange.first.position, identity.orderRange.last.position))

theorem sortKey_inj {a b : FrozenFragmentIdentity} (h : a.sortKey = b.sortKey) : a = b := by
  obtain ⟨key, ⟨first, last⟩, _⟩ := a
  obtain ⟨key', ⟨first', last'⟩, _⟩ := b
  simp only [sortKey, EmbeddingLike.apply_eq_iff_eq, Prod.mk.injEq] at h
  obtain ⟨hkey, hfirst, hlast⟩ := h
  obtain rfl := FrozenFragmentKey.sortKey_inj hkey
  obtain rfl := position_inj hfirst
  obtain rfl := position_inj hlast
  rfl

theorem ext_of_orders {a b : FrozenFragmentIdentity} (hkey : a.key = b.key)
    (hfirst : a.orderRange.first = b.orderRange.first)
    (hlast : a.orderRange.last = b.orderRange.last) : a = b := by
  apply sortKey_inj
  rw [sortKey, sortKey, hkey, hfirst, hlast]

end FrozenFragmentIdentity

instance : LinearOrder FrozenFragmentIdentity :=
  LinearOrder.lift' FrozenFragmentIdentity.sortKey fun _ _ => FrozenFragmentIdentity.sortKey_inj

structure FrozenSeriesKey where
  series : SeriesRef
  kind : SampleKind
  codec : String
  samples : Nat
  blocks : Nat
  deriving DecidableEq, Repr

def FrozenSeriesKey.sortKey (run : FrozenSeriesKey) : ℕ ×ₗ ℕ :=
  toLex (run.series.get.toNat, run.kind.rank)

/-- What the store reads of a fragment behind a shared pointer: the address, the range, the lane and
the directory, which ascends by series and kind. -/
structure SharedFragment where
  address : Nat
  startMs : UInt64
  endMs : UInt64
  lane : FrozenHeadLane
  runs : List FrozenSeriesKey
  sorted : runs.Pairwise (·.sortKey < ·.sortKey)
  counted : ∀ run ∈ runs, run.samples < 2 ^ 64 ∧ run.blocks < 2 ^ 64

namespace SharedFragment

def runExact (fragment : SharedFragment) (series : SeriesRef) (kind : SampleKind) :
    Option FrozenSeriesKey :=
  fragment.runs.find? fun run => run.series = series ∧ run.kind = kind

theorem runExact_of_mem {fragment : SharedFragment} {run : FrozenSeriesKey}
    (h : run ∈ fragment.runs) : fragment.runExact run.series run.kind = some run := by
  obtain ⟨front, back, hruns⟩ := List.append_of_mem h
  have hsorted := fragment.sorted
  rw [hruns, List.pairwise_append] at hsorted
  unfold runExact
  rw [hruns, List.find?_append, List.find?_eq_none.mpr, Option.none_or, List.find?_cons_of_pos]
  · simp
  intro earlier hearlier
  have hlt := hsorted.2.2 earlier hearlier run List.mem_cons_self
  rw [decide_eq_true_eq]
  rintro ⟨hseries, hkind⟩
  rw [FrozenSeriesKey.sortKey, FrozenSeriesKey.sortKey, hseries, hkind] at hlt
  exact hlt.false

end SharedFragment

structure FrozenRunRef where
  key : LiveSampleKey
  first : RecordedSampleOrder
  last : RecordedSampleOrder
  fragment : SharedFragment

def FrozenRunRef.readOrderKey (run : FrozenRunRef) :
    ℕ ×ₗ ℕ ×ₗ ℕ ×ₗ String ×ₗ ℤ ×ₗ ℕ ×ₗ ℕ ×ₗ ℕ ×ₗ ℕ :=
  toLex (run.key.fragment.startMs.toNat, toLex (run.key.fragment.endMs.toNat,
    toLex (run.key.fragment.lane.rank, toLex (run.key.fragment.partition.topic,
      toLex (run.key.fragment.partition.partition, toLex (run.first.position,
        toLex (run.last.position, toLex (run.key.series.get.toNat, run.key.kind.rank))))))))

theorem FrozenRunRef.readOrderKey_inj {a b : FrozenRunRef} (h : a.readOrderKey = b.readOrderKey) :
    a.key = b.key ∧ a.first = b.first ∧ a.last = b.last := by
  obtain ⟨⟨⟨⟨topic, partition⟩, startMs, endMs, lane⟩, ⟨series⟩, kind⟩, first, last, _⟩ := a
  obtain ⟨⟨⟨⟨topic', partition'⟩, startMs', endMs', lane'⟩, ⟨series'⟩, kind'⟩, first', last', _⟩ := b
  simp only [readOrderKey, EmbeddingLike.apply_eq_iff_eq, Prod.mk.injEq, UInt64.toNat_inj,
    UInt32.toNat_inj] at h
  obtain ⟨rfl, rfl, hlane, rfl, rfl, hfirst, hlast, rfl, hkind⟩ := h
  obtain rfl := FrozenHeadLane.rank_inj hlane
  obtain rfl := SampleKind.rank_inj hkind
  exact ⟨rfl, position_inj hfirst, position_inj hlast⟩

end Chronoxide
