import Chronoxide.Chunk.Timestamps

/-! Blocks of samples (`block.rs`): a builder that takes one sample after the other, and the block
it is sealed into. The buffers of a sealed block lie in an arena of the source; here the block has
its bytes itself. -/

namespace Chronoxide
open Codec List

def saturatingAdd (a b : UInt64) : UInt64 := if a.toNat + b.toNat < 2 ^ 64 then a + b else -1

def counterMax (width : Nat) : Nat := 2 ^ width - 1

/-- `saturating_add(1)` on an unsigned counter. -/
def saturatingSucc (width n : Nat) : Nat := min (n + 1) (counterMax width)

theorem saturatingSucc_min (width n : Nat) :
    saturatingSucc width (min n (counterMax width)) = min (n + 1) (counterMax width) := by
  unfold saturatingSucc
  omega

/-- A value codec. A failed `push` has no next state: the trait asks that it leave what a decoder
sees unchanged. -/
structure BlockCodec (V : Type) where
  name : String
  State : Type
  new : V → Except IoError State
  push : State → V → Except IoError State
  snapshotBytes : State → Bytes
  intoBytes : State → Bytes
  decodeValues : Bytes → Nat → Except IoError (List V)

namespace BlockCodec

variable {V : Type}

inductive Taken (C : BlockCodec V) : List V → C.State → Prop
  | new {v : V} {s : C.State} : C.new v = .ok s → Taken C [v] s
  | push {vs : List V} {v : V} {s t : C.State} :
      Taken C vs s → C.push s v = .ok t → Taken C (vs ++ [v]) t

def Wrote (C : BlockCodec V) (s : C.State) (bytes : Bytes) : Prop :=
  bytes = C.intoBytes s ∨ bytes = C.snapshotBytes s

/-- What was taken can be read back, as far as the counter of a block and the length of a byte
vector go. -/
def Lossless (C : BlockCodec V) : Prop :=
  ∀ (vs : List V) (s : C.State) (bytes : Bytes), C.Taken vs s → C.Wrote s bytes →
    vs.length ≤ counterMax 32 → bytes.length ≤ isizeMax →
    C.decodeValues bytes vs.length = .ok vs

end BlockCodec

/-- The timestamp stream of a block: the distance of each sample from the start of its window. -/
def encodeOffsets (baseMs : UInt64) (timestamps : List UInt64) : Bytes :=
  timestamps.flatMap fun timestampMs => encodeVarint (timestampMs - baseMs)

theorem encodeOffsets_append (baseMs timestampMs : UInt64) (timestamps : List UInt64) :
    encodeOffsets baseMs (timestamps ++ [timestampMs]) =
      encodeOffsets baseMs timestamps ++ encodeVarint (timestampMs - baseMs) := by
  simp [encodeOffsets]

section
variable {V : Type} (C : BlockCodec V)

/-- What the fields of a builder or block say about the samples it was given. -/
structure BlockFields (entries : List (UInt64 × V)) (baseMs minTs maxTs : UInt64)
    (timestamps : Bytes) (samples : Nat) : Prop where
  base_le : ∀ e ∈ entries, baseMs ≤ e.1
  min_le : ∀ e ∈ entries, minTs ≤ e.1
  le_max : ∀ e ∈ entries, e.1 ≤ maxTs
  timestamps_eq : timestamps = encodeOffsets baseMs (entries.map Prod.fst)
  samples_eq : samples = min entries.length (counterMax 32)

structure BlockBuilder where
  baseMs : UInt64
  minTs : UInt64
  maxTs : UInt64
  timestamps : Bytes
  values : C.State
  samples : Nat
  /-- The samples the builder took, oldest first. The program keeps only their encoding, to which
  the two fields below tie this list. -/
  entries : List (UInt64 × V)
  fields : BlockFields entries baseMs minTs maxTs timestamps samples
  taken : C.Taken (entries.map Prod.snd) values

structure Block where
  baseMs : UInt64
  minTs : UInt64
  maxTs : UInt64
  timestamps : Bytes
  values : Bytes
  samples : Nat
  entries : List (UInt64 × V)
  fields : BlockFields entries baseMs minTs maxTs timestamps samples
  written : ∃ s, C.Taken (entries.map Prod.snd) s ∧ C.Wrote s values

end

def precedesWindowStart : IoError := invalidInput "timestamp precedes window start"

section
variable {V : Type} {C : BlockCodec V}

theorem BlockFields.one {baseMs timestampMs : UInt64} (value : V) (h : baseMs ≤ timestampMs) :
    BlockFields [(timestampMs, value)] baseMs timestampMs timestampMs
      (encodeVarint (timestampMs - baseMs)) 1 where
  base_le := by simpa using h
  min_le := by simp
  le_max := by simp
  timestamps_eq := by simp [encodeOffsets]
  samples_eq := rfl

theorem BlockFields.push {entries : List (UInt64 × V)} {baseMs minTs maxTs timestampMs : UInt64}
    {timestamps : Bytes} {samples : Nat} (value : V)
    (h : BlockFields entries baseMs minTs maxTs timestamps samples)
    (hbase : baseMs ≤ timestampMs) :
    BlockFields (entries ++ [(timestampMs, value)]) baseMs
      (if timestampMs < minTs then timestampMs else minTs)
      (if maxTs < timestampMs then timestampMs else maxTs)
      (timestamps ++ encodeVarint (timestampMs - baseMs)) (saturatingSucc 32 samples) where
  base_le := forall_mem_append.mpr ⟨h.base_le, forall_mem_singleton.mpr hbase⟩
  min_le e he := by
    rcases mem_append.mp he with he | he
    · have := h.min_le e he
      split
      · rename_i hlt
        exact UInt64.le_of_lt (UInt64.lt_of_lt_of_le hlt this)
      · exact this
    rw [mem_singleton.mp he]
    split
    · exact UInt64.le_refl _
    · rename_i hlt
      exact UInt64.not_lt.mp hlt
  le_max e he := by
    rcases mem_append.mp he with he | he
    · have := h.le_max e he
      split
      · rename_i hlt
        exact UInt64.le_of_lt (UInt64.lt_of_le_of_lt this hlt)
      · exact this
    rw [mem_singleton.mp he]
    split
    · exact UInt64.le_refl _
    · rename_i hlt
      exact UInt64.not_lt.mp hlt
  timestamps_eq := by
    rw [map_append, map_singleton, encodeOffsets_append, ← h.timestamps_eq]
  samples_eq := by
    rw [h.samples_eq, saturatingSucc_min, length_append, length_singleton]

namespace BlockBuilder

def new (C : BlockCodec V) (baseMs timestampMs : UInt64) (value : V) :
    Except IoError (BlockBuilder C) :=
  if h : timestampMs < baseMs then .error precedesWindowStart
  else
    match hnew : C.new value with
    | .error e => .error e
    | .ok values => .ok {
        baseMs, values
        minTs := timestampMs
        maxTs := timestampMs
        timestamps := encodeVarint (timestampMs - baseMs)
        samples := 1
        entries := [(timestampMs, value)]
        fields := .one value (UInt64.not_lt.mp h)
        taken := .new hnew }

variable (b : BlockBuilder C)

/-- The value goes first: a rejected value leaves both streams as they were. -/
def pushSample (timestampMs : UInt64) (value : V) : Except IoError (BlockBuilder C) :=
  if h : timestampMs < b.baseMs then .error precedesWindowStart
  else
    match hpush : C.push b.values value with
    | .error e => .error e
    | .ok values => .ok {
        values
        baseMs := b.baseMs
        minTs := if timestampMs < b.minTs then timestampMs else b.minTs
        maxTs := if b.maxTs < timestampMs then timestampMs else b.maxTs
        timestamps := b.timestamps ++ encodeVarint (timestampMs - b.baseMs)
        samples := saturatingSucc 32 b.samples
        entries := b.entries ++ [(timestampMs, value)]
        fields := b.fields.push value (UInt64.not_lt.mp h)
        taken := by
          rw [List.map_append, List.map_singleton]
          exact .push b.taken hpush }

def isFull (blockSize : Nat) : Bool := blockSize ≤ b.samples

def «seal» : Block C :=
  { b with values := C.intoBytes b.values, written := ⟨b.values, b.taken, .inl rfl⟩ }

def trySeal : Block C :=
  { b with values := C.snapshotBytes b.values, written := ⟨b.values, b.taken, .inr rfl⟩ }

variable {b b' : BlockBuilder C} {baseMs timestampMs : UInt64} {value : V}

theorem new_entries (h : new C baseMs timestampMs value = .ok b) :
    b.entries = [(timestampMs, value)] ∧ b.baseMs = baseMs := by
  unfold new at h
  split at h
  · cases h
  split at h
  · cases h
  · cases h
    exact ⟨rfl, rfl⟩

theorem pushSample_entries (h : b.pushSample timestampMs value = .ok b') :
    b'.entries = b.entries ++ [(timestampMs, value)] ∧ b'.baseMs = b.baseMs := by
  unfold pushSample at h
  split at h
  · cases h
  split at h
  · cases h
  · cases h
    exact ⟨rfl, rfl⟩

@[simp] theorem seal_entries (b : BlockBuilder C) : b.seal.entries = b.entries := rfl
@[simp] theorem trySeal_entries (b : BlockBuilder C) : b.trySeal.entries = b.entries := rfl

end BlockBuilder

/-- `decode_samples` of builders and blocks, over the two byte streams. -/
def decodeBlockSamples (C : BlockCodec V) (baseMs : UInt64) (timestamps values : Bytes)
    (samples : Nat) : Except IoError (List (UInt64 × V)) := do
  let readTimestamps : Reader (List UInt64) := do
    let offsets ← decodeVarint.times samples
    Parser.atEnd (invalidData "timestamp buffer has trailing bytes")
    return offsets.map (saturatingAdd baseMs)
  let decoded ← readTimestamps.value timestamps
  let vs ← C.decodeValues values samples
  require (vs.length = decoded.length) (invalidData "decoded value count mismatch")
  return decoded.zip vs

variable (b : BlockBuilder C)

def BlockBuilder.decodeSamples : Except IoError (List (UInt64 × V)) :=
  decodeBlockSamples C b.baseMs b.timestamps (C.snapshotBytes b.values) b.samples

def BlockBuilder.overlaps (startMs endMs : UInt64) : Bool :=
  startMs ≤ b.maxTs && b.minTs < endMs

def Block.decodeSamples (b : Block C) : Except IoError (List (UInt64 × V)) :=
  decodeBlockSamples C b.baseMs b.timestamps b.values b.samples

def Block.overlaps (b : Block C) (startMs endMs : UInt64) : Bool :=
  startMs ≤ b.maxTs && b.minTs < endMs

theorem saturatingAdd_sub {a b : UInt64} (h : a ≤ b) : saturatingAdd a (b - a) = b := by
  rw [UInt64.le_iff_toNat_le] at h
  have hsub : (b - a).toNat = b.toNat - a.toNat :=
    UInt64.toNat_sub_of_le _ _ (UInt64.le_iff_toNat_le.mpr h)
  have hfits : a.toNat + (b - a).toNat < 2 ^ 64 := by
    have := b.toNat_lt
    omega
  rw [saturatingAdd, if_pos hfits, ← UInt64.toNat_inj, UInt64.toNat_add, Nat.mod_eq_of_lt hfits]
  omega

theorem map_saturatingAdd_offsets {baseMs : UInt64} {timestamps : List UInt64}
    (h : ∀ t ∈ timestamps, baseMs ≤ t) :
    (timestamps.map (· - baseMs)).map (saturatingAdd baseMs) = timestamps := by
  rw [map_map]
  conv_rhs => rw [← map_id timestamps]
  apply map_congr_left
  intro t ht
  exact saturatingAdd_sub (h t ht)

theorem BlockFields.decodeBlockSamples_eq {entries : List (UInt64 × V)}
    {baseMs minTs maxTs : UInt64} {timestamps values : Bytes} {samples : Nat}
    (h : BlockFields entries baseMs minTs maxTs timestamps samples)
    (hlen : entries.length ≤ counterMax 32)
    (hvalues : C.decodeValues values entries.length = .ok (entries.map Prod.snd)) :
    decodeBlockSamples C baseMs timestamps values samples = .ok entries := by
  have hsamples : samples = entries.length := by rw [h.samples_eq, Nat.min_eq_left hlen]
  have hbase : ∀ t ∈ entries.map Prod.fst, baseMs ≤ t := by
    intro t ht
    obtain ⟨e, he, rfl⟩ := mem_map.mp ht
    exact h.base_le e he
  have hoffsets : decodeVarint.times samples timestamps =
      .ok ((entries.map Prod.fst).map (· - baseMs), []) := by
    rw [decodeVarint_codes.times samples]
    refine ⟨⟨by simp [hsamples], fun _ _ => trivial⟩, ?_⟩
    simp [h.timestamps_eq, encodeOffsets, flatMap_map, append_nil]
  refine except_bind_ok.mpr ⟨entries.map Prod.fst, ?_, ?_⟩
  · rw [Parser.value_ok]
    simp only [Parser.bind_ok, Parser.atEnd_ok, Parser.pure_ok]
    exact ⟨[], _, _, hoffsets, (), [], ⟨rfl, rfl⟩, map_saturatingAdd_offsets hbase, rfl⟩
  rw [hsamples, except_bind_ok]
  refine ⟨_, hvalues, ?_⟩
  simp only [require_bind_ok, except_pure_ok]
  exact ⟨by simp, by rw [zip_map', map_id']⟩

def Block.Fits (b : Block C) : Prop := b.values.length ≤ isizeMax

def BlockBuilder.Fits : Prop :=
  (C.snapshotBytes b.values).length ≤ isizeMax ∧ (C.intoBytes b.values).length ≤ isizeMax

theorem BlockBuilder.decodeSamples_eq (hC : C.Lossless) {b : BlockBuilder C} (hfits : b.Fits)
    (hlen : b.entries.length ≤ counterMax 32) : b.decodeSamples = .ok b.entries := by
  apply b.fields.decodeBlockSamples_eq hlen
  simpa using hC _ _ _ b.taken (.inr rfl) (by simpa using hlen) hfits.1

theorem Block.decodeSamples_eq (hC : C.Lossless) {b : Block C} (hfits : b.Fits)
    (hlen : b.entries.length ≤ counterMax 32) : b.decodeSamples = .ok b.entries := by
  apply b.fields.decodeBlockSamples_eq hlen
  obtain ⟨s, htaken, hwrote⟩ := b.written
  simpa using hC _ _ _ htaken hwrote (by simpa using hlen) hfits

end

end Chronoxide
