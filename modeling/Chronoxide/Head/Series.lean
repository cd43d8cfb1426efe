import Chronoxide.Head.Block

/-! The encoded samples of one series in a head window (`head/encoded.rs`): sealed blocks and the
block under construction, or, for short numeric series, a few samples as they are. -/

namespace Chronoxide
open List

/-- The outcome of a call on a value that is kept whether the call succeeds or fails. -/
abbrev Mutation (σ α : Type) := Except IoError α × σ

/-- A call adds one entry behind those that were held, or fails and leaves them. -/
def Appends {α : Type} (entry : α) (before : List α) : Except IoError Unit × List α → Prop
  | (.ok _, after) => after = before ++ [entry]
  | (.error _, after) => after = before

/-- What a push sees of the arena that sealed blocks are written to. -/
structure BlockArena where
  adaptive : Bool
  fault : Nat → Option IoError

structure Series {V : Type} (C : BlockCodec V) where
  blocks : List (Block C)
  current : Option (BlockBuilder C)
  samples : Nat

namespace Series

variable {V : Type} {C : BlockCodec V}

def new (C : BlockCodec V) : Series C := ⟨[], none, 0⟩

variable (s : Series C)

def entries : List (UInt64 × V) :=
  s.blocks.flatMap Block.entries ++ s.current.elim [] BlockBuilder.entries

def sealCurrent : Series C :=
  match s.current with
  | some block => { s with blocks := s.blocks ++ [block.seal], current := none }
  | none => s

def trySealCurrent (fault : Option IoError) : Mutation (Series C) Unit :=
  match s.current with
  | none => (.ok (), s)
  | some block =>
    match fault with
    | some error => (.error error, s)
    | none => (.ok (), { s with blocks := s.blocks ++ [block.trySeal], current := none })

-- The two halves of `push_sample`: a full block is sealed, then the sample goes to the block under
-- construction or to a new one.
def sealFull (arena : BlockArena) (blockSize : Nat) : Mutation (Series C) Unit :=
  if s.current.any (·.isFull blockSize) then
    if arena.adaptive then s.trySealCurrent (arena.fault s.blocks.length)
    else (.ok (), s.sealCurrent)
  else (.ok (), s)

def pushCurrent (baseMs timestampMs : UInt64) (value : V) (blockSize : Nat) :
    Mutation (Series C) Unit :=
  match s.current with
  | some block =>
    if block.isFull blockSize then (.ok (), { s with samples := saturatingSucc 64 s.samples })
    else
      match block.pushSample timestampMs value with
      | .error error => (.error error, s)
      | .ok block =>
        (.ok (), { s with current := some block, samples := saturatingSucc 64 s.samples })
  | none =>
    match BlockBuilder.new C baseMs timestampMs value with
    | .error error => (.error error, s)
    | .ok block => (.ok (), { s with current := some block, samples := saturatingSucc 64 s.samples })

def pushSample (arena : BlockArena) (baseMs timestampMs : UInt64) (value : V) (blockSize : Nat)
    : Mutation (Series C) Unit :=
  if timestampMs < baseMs then (.error precedesWindowStart, s)
  else
    match s.sealFull arena blockSize with
    | (.error error, s) => (.error error, s)
    | (.ok (), s) => s.pushCurrent baseMs timestampMs value blockSize

def pushSamples (arena : BlockArena) (baseMs : UInt64) (blockSize : Nat) :
    List (UInt64 × V) → Series C → Mutation (Series C) Unit
  | [], s => (.ok (), s)
  | (timestampMs, value) :: rest, s =>
    match s.pushSample arena baseMs timestampMs value blockSize with
    | (.error error, s) => (.error error, s)
    | (.ok (), s) => pushSamples arena baseMs blockSize rest s

/-- The counter is the number of samples, and no block outgrew its own counter. -/
structure WF (s : Series C) : Prop where
  samples_eq : s.samples = min s.entries.length (counterMax 64)
  blocks_le : ∀ block ∈ s.blocks, block.entries.length ≤ counterMax 32
  current_le : ∀ block ∈ s.current, block.entries.length ≤ counterMax 32

theorem new_wf : (new C).WF := ⟨rfl, by simp [new], by simp [new]⟩

@[simp] theorem new_entries : (new C).entries = [] := rfl

variable {s : Series C}

theorem moveCurrent {block : BlockBuilder C} {sealed : Block C} (hcurrent : s.current = some block)
    (hsealed : sealed.entries = block.entries) :
    ({ s with blocks := s.blocks ++ [sealed], current := none } : Series C).entries = s.entries ∧
      (s.WF → ({ s with blocks := s.blocks ++ [sealed], current := none } : Series C).WF) := by
  have hentries : ({ s with blocks := s.blocks ++ [sealed], current := none } : Series C).entries =
      s.entries := by
    simp [entries, hcurrent, hsealed]
  refine ⟨hentries, fun h => ⟨?_, ?_, by simp⟩⟩
  · rw [hentries]
    exact h.samples_eq
  · refine forall_mem_append.mpr ⟨h.blocks_le, forall_mem_singleton.mpr ?_⟩
    rw [hsealed]
    exact h.current_le block hcurrent

theorem sealCurrent_spec (s : Series C) :
    s.sealCurrent.entries = s.entries ∧ (s.WF → s.sealCurrent.WF) ∧ s.sealCurrent.current = none := by
  unfold sealCurrent
  split
  · rename_i block hcurrent
    obtain ⟨hentries, hwf⟩ := moveCurrent hcurrent block.seal_entries
    exact ⟨hentries, hwf, rfl⟩
  · rename_i hcurrent
    exact ⟨rfl, id, hcurrent⟩

theorem trySealCurrent_spec (s : Series C) (fault : Option IoError) :
    (s.trySealCurrent fault).2.entries = s.entries ∧ (s.WF → (s.trySealCurrent fault).2.WF) ∧
      ((s.trySealCurrent fault).1 = .ok () → (s.trySealCurrent fault).2.current = none) := by
  unfold trySealCurrent
  split
  · rename_i hcurrent
    exact ⟨rfl, id, fun _ => hcurrent⟩
  rename_i block hcurrent
  cases fault with
  | some error => exact ⟨rfl, id, fun h => by cases h⟩
  | none =>
    obtain ⟨hentries, hwf⟩ := moveCurrent hcurrent block.trySeal_entries
    exact ⟨hentries, hwf, fun _ => rfl⟩

theorem sealFull_spec (s : Series C) (arena : BlockArena) (blockSize : Nat) :
    (s.sealFull arena blockSize).2.entries = s.entries ∧
      (s.WF → (s.sealFull arena blockSize).2.WF) ∧
      ((s.sealFull arena blockSize).1 = .ok () →
        ∀ block ∈ (s.sealFull arena blockSize).2.current, block.isFull blockSize = false) := by
  unfold sealFull
  split
  · split
    · obtain ⟨hentries, hwf, hnone⟩ := s.trySealCurrent_spec (arena.fault s.blocks.length)
      refine ⟨hentries, hwf, fun hok block hblock => ?_⟩
      rw [hnone hok] at hblock
      cases hblock
    obtain ⟨hentries, hwf, hnone⟩ := s.sealCurrent_spec
    refine ⟨hentries, hwf, fun _ block hblock => ?_⟩
    rw [hnone] at hblock
    cases hblock
  rename_i hfull
  refine ⟨rfl, id, fun _ block hblock => ?_⟩
  by_contra hne
  apply hfull
  rw [Option.mem_def.mp hblock]
  simpa using hne

theorem setCurrent_entries {block : BlockBuilder C} {entry : UInt64 × V} {samples : Nat}
    (hblock : block.entries = s.current.elim [] BlockBuilder.entries ++ [entry]) :
    ({ s with current := some block, samples := samples } : Series C).entries =
      s.entries ++ [entry] := by
  simp [entries, hblock]

theorem pushCurrent_spec {baseMs timestampMs : UInt64} {value : V} {blockSize : Nat} (h : s.WF)
    (hsize : blockSize ≤ counterMax 32)
    (hroom : ∀ block ∈ s.current, block.isFull blockSize = false) :
    Appends (timestampMs, value) s.entries
        ((s.pushCurrent baseMs timestampMs value blockSize).1,
          (s.pushCurrent baseMs timestampMs value blockSize).2.entries) ∧
      (s.pushCurrent baseMs timestampMs value blockSize).2.WF := by
  have hsucc : ∀ {block : BlockBuilder C} {entries' : List (UInt64 × V)},
      block.entries = entries' ++ [(timestampMs, value)] →
      s.current.elim [] BlockBuilder.entries = entries' → entries'.length < counterMax 32 →
      Appends (timestampMs, value) s.entries
        (.ok (), ({ s with current := some block, samples := saturatingSucc 64 s.samples } :
          Series C).entries) ∧
      ({ s with current := some block, samples := saturatingSucc 64 s.samples } : Series C).WF := by
    intro block entries' hblock hcurrent hlen
    have hentries : ({ s with current := some block, samples := saturatingSucc 64 s.samples } :
        Series C).entries = s.entries ++ [(timestampMs, value)] :=
      setCurrent_entries (by rw [hblock, hcurrent])
    refine ⟨hentries, ?_, h.blocks_le, ?_⟩
    · rw [hentries, length_append, length_singleton, ← saturatingSucc_min, ← h.samples_eq]
    intro b hb
    obtain rfl := Option.some.inj hb
    rw [hblock, length_append, length_singleton]
    exact hlen
  unfold pushCurrent
  split
  · rename_i block hcurrent
    have hnot := hroom block hcurrent
    rw [hnot, if_neg Bool.false_ne_true]
    split
    · exact ⟨rfl, h⟩
    rename_i pushed hpush
    refine hsucc (BlockBuilder.pushSample_entries hpush).1 (by rw [hcurrent]; rfl) ?_
    have hfew : ¬ blockSize ≤ block.samples := by simpa [BlockBuilder.isFull] using hnot
    rw [block.fields.samples_eq] at hfew
    omega
  rename_i hcurrent
  split
  · exact ⟨rfl, h⟩
  rename_i fresh hnew
  have hfresh : fresh.entries = [] ++ [(timestampMs, value)] :=
    (BlockBuilder.new_entries hnew).1
  exact hsucc hfresh (by rw [hcurrent]; rfl) (by simp [counterMax])

theorem pushSample_spec (h : s.WF) (arena : BlockArena) (baseMs timestampMs : UInt64) (value : V)
    {blockSize : Nat} (hsize : blockSize ≤ counterMax 32) :
    Appends (timestampMs, value) s.entries
        ((s.pushSample arena baseMs timestampMs value blockSize).1,
          (s.pushSample arena baseMs timestampMs value blockSize).2.entries) ∧
      (s.pushSample arena baseMs timestampMs value blockSize).2.WF := by
  unfold pushSample
  split
  · exact ⟨rfl, h⟩
  obtain ⟨hentries, hwf, hroom⟩ := s.sealFull_spec arena blockSize
  split
  · rename_i hsealed
    rw [hsealed] at hentries hwf
    exact ⟨hentries, hwf h⟩
  rename_i hsealed
  rw [hsealed] at hentries hwf hroom
  rw [← hentries]
  exact pushCurrent_spec (hwf h) hsize (hroom rfl)

theorem pushSamples_ok {arena : BlockArena} {baseMs : UInt64} {blockSize : Nat}
    (hsize : blockSize ≤ counterMax 32) (samples : List (UInt64 × V)) {s t : Series C} (h : s.WF)
    (hok : pushSamples arena baseMs blockSize samples s = (.ok (), t)) :
    t.entries = s.entries ++ samples ∧ t.WF := by
  induction samples generalizing s with
  | nil =>
    obtain rfl : s = t := congrArg Prod.snd hok
    exact ⟨(append_nil _).symm, h⟩
  | cons sample rest ih =>
    obtain ⟨timestampMs, value⟩ := sample
    unfold pushSamples at hok
    have hspec := pushSample_spec h arena baseMs timestampMs value hsize
    split at hok
    · cases hok
    rename_i pushed hpush
    rw [hpush] at hspec
    obtain ⟨hentries, hwf⟩ := hspec
    obtain ⟨hrest, hwf'⟩ := ih hwf hok
    refine ⟨?_, hwf'⟩
    rw [hrest, show pushed.entries = _ from hentries]
    simp

end Series

end Chronoxide
