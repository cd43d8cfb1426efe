import Chronoxide.Encoding.Io

/-! Streaming XXH64 with seed zero (`hash.rs`). -/

namespace Chronoxide

def xxhash64P1 : UInt64 := 11400714785074694791
def xxhash64P2 : UInt64 := 14029467366897019727
def xxhash64P3 : UInt64 := 1609587929392839161
def xxhash64P4 : UInt64 := 9650029242287828579
def xxhash64P5 : UInt64 := 2870177450012600261

def rotateLeft (x n : UInt64) : UInt64 := x <<< n ||| x >>> (64 - n)

def xxhash64Round (accumulator input : UInt64) : UInt64 :=
  rotateLeft (accumulator + input * xxhash64P2) 31 * xxhash64P1

def xxhash64MergeRound (accumulator value : UInt64) : UInt64 :=
  (accumulator ^^^ xxhash64Round 0 value) * xxhash64P1 + xxhash64P4

/-- The buffer without the bytes behind its length. -/
structure XxHash64 where
  totalLen : UInt64
  lanes : List UInt64
  buffered : List UInt8
  deriving DecidableEq, Repr

namespace XxHash64

def new : XxHash64 := ⟨0, [xxhash64P1 + xxhash64P2, xxhash64P2, 0, 0 - xxhash64P1], []⟩

def consumeBlock (lanes : List UInt64) (block : List UInt8) : List UInt64 :=
  lanes.mapIdx fun index lane => xxhash64Round lane (u64FromLe ((block.drop (index * 8)).take 8))

def consumeBlocks : Nat → List UInt64 → List UInt8 → List UInt64 × List UInt8
  | 0, lanes, input => (lanes, input)
  | n + 1, lanes, input => consumeBlocks n (consumeBlock lanes (input.take 32)) (input.drop 32)

def chunksExact (lanes : List UInt64) (input : List UInt8) : List UInt64 × List UInt8 :=
  consumeBlocks (input.length / 32) lanes input

def update (h : XxHash64) (input : List UInt8) : XxHash64 :=
  let totalLen := h.totalLen + .ofNat input.length
  if h.buffered ≠ [] then
    let missing := 32 - h.buffered.length
    if input.length < missing then ⟨totalLen, h.lanes, h.buffered ++ input⟩
    else
      let lanes := consumeBlock h.lanes (h.buffered ++ input.take missing)
      let (lanes, remainder) := chunksExact lanes (input.drop missing)
      ⟨totalLen, lanes, remainder⟩
  else
    let (lanes, remainder) := chunksExact h.lanes input
    ⟨totalLen, lanes, remainder⟩

def mergeLanes (lanes : List UInt64) : UInt64 :=
  let rotated := List.zipWith rotateLeft lanes [1, 7, 12, 18]
  lanes.foldl xxhash64MergeRound (rotated.foldl (· + ·) 0)

def finishByte (hash : UInt64) (byte : UInt8) : UInt64 :=
  rotateLeft (hash ^^^ byte.toUInt64 * xxhash64P5) 11 * xxhash64P1

/-- The bytes left over: words of eight, at most one of four, and single bytes. -/
def finishTail (hash : UInt64) : List UInt8 → UInt64
  | b0 :: b1 :: b2 :: b3 :: b4 :: b5 :: b6 :: b7 :: rest =>
    let word := u64FromLe [b0, b1, b2, b3, b4, b5, b6, b7]
    finishTail (rotateLeft (hash ^^^ xxhash64Round 0 word) 27 * xxhash64P1 + xxhash64P4) rest
  | b0 :: b1 :: b2 :: b3 :: rest =>
    let word := (u32FromLe [b0, b1, b2, b3]).toUInt64
    rest.foldl finishByte
      (rotateLeft (hash ^^^ word * xxhash64P1) 23 * xxhash64P2 + xxhash64P3)
  | rest => rest.foldl finishByte hash

def finish (h : XxHash64) : UInt64 :=
  let hash := if h.totalLen ≥ 32 then mergeLanes h.lanes else xxhash64P5
  let hash := finishTail (hash + h.totalLen) h.buffered
  let hash := (hash ^^^ hash >>> 33) * xxhash64P2
  let hash := (hash ^^^ hash >>> 29) * xxhash64P3
  hash ^^^ hash >>> 32

end XxHash64

def xxhash64 (input : List UInt8) : UInt64 := (XxHash64.new.update input).finish

example : xxhash64 [] = 0xef46db3751d8e999 := by decide +kernel
example : xxhash64 [104, 101, 108, 108, 111] = 0x26c7827d889f6da3 := by decide +kernel

end Chronoxide
