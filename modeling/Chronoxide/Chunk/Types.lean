import Chronoxide.Head.SchemaValues

/-! Chunk kinds, encodings, header flags and records (`chunk/types.rs`). -/

namespace Chronoxide

def frameHeaderLen : Nat := 14
def chunkHeaderLen : Nat := 40
def typedScalarLaneHeaderLen : Nat := 16

def typedScalarLaneMagic : UInt32 := u32FromLe [0x54, 0x53, 0x43, 0x4c]
def typedScalarLaneVersion : UInt16 := 1

def chunkFlagHasStartTime : UInt16 := (1 : UInt16) <<< 1
def chunkFlagHasPerSampleFlags : UInt16 := (1 : UInt16) <<< 2
def chunkFlagHasCounterResetHints : UInt16 := (1 : UInt16) <<< 3
def chunkFlagTemporalityDelta : UInt16 := (1 : UInt16) <<< 4

structure TypedChunkFlagsAccumulator where
  flags : UInt16
  sawAny : Bool
  allDelta : Bool
  deriving DecidableEq, Repr

namespace TypedChunkFlagsAccumulator

def default : TypedChunkFlagsAccumulator := ⟨0, false, false⟩

def observe (self : TypedChunkFlagsAccumulator) (metadata : TypedSampleMetadata) :
    TypedChunkFlagsAccumulator :=
  let allDelta := if self.sawAny then self.allDelta else true
  let flags := if metadata.startTimeMs.isSome then self.flags ||| chunkFlagHasStartTime
    else self.flags
  let flags := if metadata.flags ≠ 0 then flags ||| chunkFlagHasPerSampleFlags else flags
  let flags := if metadata.resetHint ≠ .unknown then flags ||| chunkFlagHasCounterResetHints
    else flags
  { flags, sawAny := true, allDelta := if metadata.temporality ≠ .delta then false else allDelta }

def finish (self : TypedChunkFlagsAccumulator) : UInt16 :=
  if self.sawAny && self.allDelta then self.flags ||| chunkFlagTemporalityDelta else self.flags

end TypedChunkFlagsAccumulator

def typedChunkFlags (metadata : List TypedSampleMetadata) : UInt16 :=
  (metadata.foldl TypedChunkFlagsAccumulator.observe .default).finish

inductive ChunkKind
  | float
  | int64
  | histogram
  | exponentialHistogram
  | summary
  deriving DecidableEq, Repr

inductive ChunkEncoding
  | schemaVarLen
  | rawF64
  | rawI64
  | gorilla
  | intDeltaZigZag
  deriving DecidableEq, Repr

def ChunkKind.toU8 : ChunkKind → UInt8
  | .float => 0
  | .int64 => 1
  | .histogram => 2
  | .exponentialHistogram => 3
  | .summary => 4

def ChunkEncoding.toU8 : ChunkEncoding → UInt8
  | .schemaVarLen => 0
  | .rawF64 => 1
  | .rawI64 => 2
  | .gorilla => 3
  | .intDeltaZigZag => 4

def decodeChunkEnum {α : Type} (toU8 : α → UInt8) (variants : List α) (error : String)
    (value : UInt8) : Except IoError α :=
  (variants.find? (toU8 · = value)).elim (.error (invalidData error)) .ok

def chunkEncodingFromU8 : UInt8 → Except IoError ChunkEncoding :=
  decodeChunkEnum ChunkEncoding.toU8
    [.schemaVarLen, .rawF64, .gorilla, .intDeltaZigZag, .rawI64] "unknown chunk encoding"

def chunkKindFromU8 : UInt8 → Except IoError ChunkKind :=
  decodeChunkEnum ChunkKind.toU8
    [.float, .int64, .histogram, .exponentialHistogram, .summary] "unknown chunk kind"

theorem decodeChunkEnum_ok {α : Type} {toU8 : α → UInt8} {variants : List α} {error : String}
    (hall : ∀ a, a ∈ variants) (hinj : Function.Injective toU8) {b : UInt8} {a : α} :
    decodeChunkEnum toU8 variants error b = .ok a ↔ b = toU8 a := by
  unfold decodeChunkEnum
  cases hfind : variants.find? (toU8 · = b) with
  | none =>
    have hnone := List.find?_eq_none.mp hfind a (hall a)
    simp only [Option.elim_none, reduceCtorEq, false_iff]
    rintro rfl
    simp at hnone
  | some a' =>
    have ha' : toU8 a' = b := by simpa using List.find?_some hfind
    simp only [Option.elim_some, Except.ok.injEq]
    constructor
    · rintro rfl
      exact ha'.symm
    · rintro rfl
      exact hinj ha'

theorem ChunkKind.toU8_injective : Function.Injective ChunkKind.toU8 := by
  intro a b h
  cases a <;> cases b <;> first | rfl | exact absurd h (by decide)

theorem ChunkEncoding.toU8_injective : Function.Injective ChunkEncoding.toU8 := by
  intro a b h
  cases a <;> cases b <;> first | rfl | exact absurd h (by decide)

theorem chunkKindFromU8_ok {b : UInt8} {k : ChunkKind} : chunkKindFromU8 b = .ok k ↔ b = k.toU8 :=
  decodeChunkEnum_ok (fun k => by cases k <;> decide) ChunkKind.toU8_injective

theorem chunkEncodingFromU8_ok {b : UInt8} {e : ChunkEncoding} :
    chunkEncodingFromU8 b = .ok e ↔ b = e.toU8 :=
  decodeChunkEnum_ok (fun e => by cases e <;> decide) ChunkEncoding.toU8_injective

structure ChunkIndexEntry where
  fileId : UInt8
  kind : ChunkKind
  flags : UInt16
  minTimeMs : UInt64
  maxTimeMs : UInt64
  offset : UInt64
  length : UInt32
  scalarLaneOffset : UInt32
  scalarLaneLen : UInt32
  deriving DecidableEq, Repr

inductive ChunkSamples
  | float (samples : List (UInt64 × F64))
  | int64 (samples : List (UInt64 × Int64))
  | histogram (samples : List (UInt64 × HistogramValue))
  | exponentialHistogram (samples : List (UInt64 × ExponentialHistogramValue))
  | summary (samples : List (UInt64 × SummaryValue))
  deriving DecidableEq, Repr

structure ChunkRecord where
  seriesRef : UInt32
  kind : ChunkKind
  minTimeMs : UInt64
  maxTimeMs : UInt64
  samples : ChunkSamples
  deriving DecidableEq, Repr

namespace ChunkSamples

def kind : ChunkSamples → ChunkKind
  | .float _ => .float
  | .int64 _ => .int64
  | .histogram _ => .histogram
  | .exponentialHistogram _ => .exponentialHistogram
  | .summary _ => .summary

def timestamps : ChunkSamples → List UInt64
  | .float samples => samples.map (·.1)
  | .int64 samples => samples.map (·.1)
  | .histogram samples => samples.map (·.1)
  | .exponentialHistogram samples => samples.map (·.1)
  | .summary samples => samples.map (·.1)

end ChunkSamples

end Chronoxide
