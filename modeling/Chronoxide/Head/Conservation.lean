import Chronoxide.Head.Steps
import Mathlib.Algebra.BigOperators.Group.Multiset.Basic
import Mathlib.Tactic.Abel

/-! No sample of a head is lost or duplicated: what was accepted is what the windows of the head and
everything it handed out hold. -/

namespace Chronoxide
open Codec List

structure AlignedRange (durationMs startMs endMs : UInt64) : Prop where
  start_mod : startMs % durationMs = 0
  end_eq : endMs = saturatingAdd startMs durationMs

/-- The largest timestamp is in no window, since the end of a window saturates. -/
def InRange (startMs endMs timestampMs : UInt64) : Prop :=
  startMs ≤ timestampMs ∧ (timestampMs ≠ -1 → timestampMs < endMs)

variable (timestampMs durationMs : UInt64)

theorem windowFor_start : (windowFor timestampMs durationMs).1.toNat =
      timestampMs.toNat - timestampMs.toNat % durationMs.toNat := by
  have hmod : (timestampMs % durationMs).toNat = timestampMs.toNat % durationMs.toNat :=
    UInt64.toNat_mod ..
  have hsmall := Nat.mod_le timestampMs.toNat durationMs.toNat
  have hle : ¬ timestampMs < timestampMs % durationMs := by
    rw [UInt64.lt_iff_toNat_lt]
    omega
  rw [windowFor, saturatingSub, if_neg hle,
    UInt64.toNat_sub_of_le _ _ (UInt64.le_iff_toNat_le.mpr (by omega)), hmod]

theorem windowFor_aligned : AlignedRange durationMs (windowFor timestampMs durationMs).1
      (windowFor timestampMs durationMs).2 := by
  refine ⟨?_, rfl⟩
  rw [← UInt64.toNat_inj, UInt64.toNat_mod, windowFor_start]
  exact Nat.sub_mod_eq_zero_of_mod_eq (Nat.mod_mod ..).symm

variable {durationMs : UInt64}

theorem windowFor_inRange (hd : durationMs ≠ 0) (timestampMs : UInt64) :
    InRange (windowFor timestampMs durationMs).1 (windowFor timestampMs durationMs).2
      timestampMs := by
  have hpos : 0 < durationMs.toNat := by
    apply Nat.pos_of_ne_zero
    intro hzero
    exact hd (UInt64.toNat_inj.mp hzero)
  have hlt := Nat.mod_lt timestampMs.toNat hpos
  have hsmall := Nat.mod_le timestampMs.toNat durationMs.toNat
  have hstart := windowFor_start timestampMs durationMs
  refine ⟨?_, fun hmax => ?_⟩
  · rw [UInt64.le_iff_toNat_le, hstart]
    omega
  change timestampMs < saturatingAdd (windowFor timestampMs durationMs).1 durationMs
  have htop : timestampMs.toNat ≠ 2 ^ 64 - 1 := fun h => hmax (UInt64.toNat_inj.mp h)
  have hrange := timestampMs.toNat_lt
  rw [UInt64.lt_iff_toNat_lt, saturatingAdd]
  split
  · rename_i hfits
    rw [UInt64.toNat_add, Nat.mod_eq_of_lt hfits]
    omega
  · change timestampMs.toNat < 2 ^ 64 - 1
    omega

namespace HeadWindow

variable {K : HeadCodecs}

structure Sound (durationMs : UInt64) (w : HeadWindow K) : Prop where
  wf : w.WF
  aligned : AlignedRange durationMs w.startMs w.endMs
  inRange : ∀ sample ∈ w.samples, InRange w.startMs w.endMs sample.timestampMs
  in_order : w.outOfOrder = false → ∀ series, (w.entriesOf series).Pairwise (·.1 ≤ ·.1)

variable {durationMs : UInt64} {w w' : HeadWindow K} {sample : Sample}

theorem Sound.kept (h : w.Sound durationMs) (hkept : w.Kept w') : w'.Sound durationMs where
  wf := hkept.wf h.wf
  aligned := by
    rw [hkept.start_eq, hkept.end_eq]
    exact h.aligned
  inRange := by
    rw [hkept.samples_eq, hkept.start_eq, hkept.end_eq]
    exact h.inRange
  in_order hlane series := by
    rw [hkept.entriesOf_eq]
    exact h.in_order (hkept.lane_eq ▸ hlane) series

theorem sound_new {startMs endMs : UInt64} (h : AlignedRange durationMs startMs endMs)
    (outOfOrder tracking : Bool) :
    (newWithLaneAndCoverage K startMs endMs outOfOrder tracking).Sound durationMs where
  wf := new_wf ..
  aligned := h
  inRange _ hsample := by cases hsample
  in_order _ _ := .nil

def Admits (w : HeadWindow K) (sample : Sample) : Prop :=
  InRange w.startMs w.endMs sample.timestampMs ∧
    (w.outOfOrder = false → ∀ e ∈ w.entriesOf sample.series, e.1 ≤ sample.timestampMs)

theorem Sound.took (h : w.Sound durationMs) (htook : w.Took w' sample) (hadmits : w.Admits sample) :
    w'.Sound durationMs where
  wf := htook.wf
  aligned := by
    rw [htook.start_eq, htook.end_eq]
    exact h.aligned
  inRange s hs := by
    rw [htook.start_eq, htook.end_eq]
    rcases mem_cons.mp (htook.samples_perm.mem_iff.mp hs) with rfl | hs
    · exact hadmits.1
    · exact h.inRange s hs
  in_order hlane series := by
    rw [htook.lane_eq] at hlane
    rw [htook.entriesOf_eq]
    split
    · rename_i hseries
      refine pairwise_append.mpr ⟨h.in_order hlane series, pairwise_singleton .., ?_⟩
      intro e he new hnew
      rw [mem_singleton.mp hnew]
      exact hadmits.2 hlane e (hseries ▸ he)
    · exact h.in_order hlane series

end HeadWindow

def acceptedBy (result : Except IoError Bool) (sample : Sample) : Multiset Sample :=
  match result with
  | .ok true => {sample}
  | _ => 0

theorem acceptedBy_of_ne {result : Except IoError Bool} (h : result ≠ .ok true) (sample : Sample) :
    acceptedBy result sample = 0 := by
  unfold acceptedBy
  split
  · exact absurd rfl h
  · rfl

namespace HeadWindow

variable {K : HeadCodecs} {durationMs : UInt64} {w w' : HeadWindow K} {sample : Sample}

structure Recorded (durationMs : UInt64) (w : HeadWindow K) (sample : Sample)
    (outcome : Mutation (HeadWindow K) Bool) : Prop extends SameSlot w outcome.2 where
  sound : outcome.2.Sound durationMs
  samples_eq : (outcome.2.samples : Multiset Sample) = acceptedBy outcome.1 sample + w.samples

theorem recordSample_recorded {config : HeadConfig} (hsize : config.blockSize ≤ counterMax 32)
    (h : w.Sound durationMs) (hadmits : w.Admits sample) (faults : SampleFaults)
    (contribution : Option RecordedSampleContribution) :
    w.Recorded durationMs sample (recordSample config w faults contribution sample) := by
  have hpushed := recordSample_pushedTo hsize h.wf faults contribution sample
  generalize recordSample config w faults contribution sample = outcome at hpushed ⊢
  obtain ⟨result, w'⟩ := outcome
  rcases result with error | accepted
  · have hkept : w.Kept w' := hpushed
    refine ⟨hkept.toSameSlot, h.kept hkept, ?_⟩
    rw [hkept.samples_eq]
    exact (zero_add _).symm
  cases accepted with
  | false =>
    obtain rfl : w' = w := hpushed
    exact ⟨⟨rfl, rfl, rfl⟩, h, (zero_add _).symm⟩
  | true =>
    have htook : w.Took w' sample := hpushed
    refine ⟨htook.toSameSlot, h.took htook hadmits, ?_⟩
    exact Multiset.coe_eq_coe.mpr htook.samples_perm

theorem Recorded.mem_samples {outcome : Mutation (HeadWindow K) Bool}
    (h : w.Recorded durationMs sample outcome) {s : Sample} (hs : s ∈ outcome.2.samples) :
    (s = sample ∧ outcome.1 = .ok true) ∨ s ∈ w.samples := by
  have hmem : s ∈ acceptedBy outcome.1 sample + (w.samples : Multiset Sample) := by
    rw [← h.samples_eq]
    exact hs
  rcases Multiset.mem_add.mp hmem with hnew | hold
  · left
    unfold acceptedBy at hnew
    split at hnew
    · rename_i hresult
      exact ⟨Multiset.mem_singleton.mp hnew, hresult⟩
    · exact absurd hnew (Multiset.notMem_zero s)
  · exact .inr hold

end HeadWindow

section
variable {K : HeadCodecs}

def samplesOf (windows : List (HeadWindow K)) : Multiset Sample :=
  (windows.map fun w => (w.samples : Multiset Sample)).sum

variable {windows windows' : List (HeadWindow K)}

@[simp] theorem samplesOf_nil : samplesOf ([] : List (HeadWindow K)) = 0 := rfl

@[simp] theorem samplesOf_cons (w : HeadWindow K) (windows : List (HeadWindow K)) :
    samplesOf (w :: windows) = w.samples + samplesOf windows := by
  simp [samplesOf]

@[simp] theorem samplesOf_append (front back : List (HeadWindow K)) :
    samplesOf (front ++ back) = samplesOf front + samplesOf back := by
  simp [samplesOf]

theorem samplesOf_perm (h : windows.Perm windows') : samplesOf windows = samplesOf windows' :=
  (h.map _).sum_eq

theorem samplesOf_restored (h : List.Forall₂ HeadWindow.Restored windows windows') :
    samplesOf windows' = samplesOf windows := by
  induction h with
  | nil => rfl
  | cons hrestored _ ih => rw [samplesOf_cons, samplesOf_cons, hrestored.samples_eq, ih]

end

namespace HeadBuffer

variable {K : HeadCodecs}

def held (head : HeadBuffer K) : Multiset Sample := samplesOf head.windows

variable (head : HeadBuffer K)

theorem held_eq :
    head.held = samplesOf head.retainedWindows + samplesOf head.window.toList +
      samplesOf (head.oooWindows.map Prod.snd) := by
  unfold held windows
  rw [samplesOf_append, samplesOf_append]

structure Inv (durationMs : UInt64) (head : HeadBuffer K) : Prop where
  duration : head.config.windowDurationMs = .ok durationMs
  retained : ∀ w ∈ head.retainedWindows, w.Sound durationMs
  active : ∀ w ∈ head.window, w.Sound durationMs ∧ w.outOfOrder = false
  late : ∀ e ∈ head.oooWindows,
    e.2.Sound durationMs ∧ e.2.outOfOrder = true ∧ e.1 = (e.2.startMs, e.2.endMs)

variable {head : HeadBuffer K}

theorem Inv.sound (h : head.Inv durationMs) : ∀ w ∈ head.windows, w.Sound durationMs := by
  refine forall_mem_append.mpr ⟨forall_mem_append.mpr ⟨h.retained, fun w hw => ?_⟩,
    forall_mem_map.mpr fun e he => (h.late e he).1⟩
  exact (h.active w (Option.mem_toList.mp hw)).1

/-- No sample of the active window is younger than the last timestamp of its series. -/
def Bounded (head : HeadBuffer K) : Prop :=
  ∀ w ∈ head.window, ∀ s ∈ w.samples,
    ∃ last, head.lastTimestamps.lookup s.series = some last ∧ s.timestampMs ≤ last

theorem blockSize_le : head.config.blockSize ≤ counterMax 32 := by
  have h := head.valid
  simp only [HeadConfig.validate, HeadConfig.validateBlockSize, except_bind_ok, require_ok,
    exists_const] at h
  obtain ⟨_, _, _, _, -, hsize⟩ := h
  exact hsize

theorem Inv.duration_ne_zero (h : head.Inv durationMs) : durationMs ≠ 0 := by
  have hduration := h.duration
  simp only [HeadConfig.windowDurationMs, require_bind_ok, except_pure_ok] at hduration
  obtain ⟨hne, hlt, rfl⟩ := hduration
  intro hzero
  apply hne
  have htoNat := congrArg UInt64.toNat hzero
  rwa [UInt64.toNat_ofNat_of_lt' hlt] at htoNat

variable {durationMs : UInt64} {sample : Sample}

def Fits (w : HeadWindow K) : WindowPlace → Prop
  | .retained => True
  | .active => w.outOfOrder = false
  | .late range => w.outOfOrder = true ∧ range = (w.startMs, w.endMs)

structure SlotOk (durationMs : UInt64) (lastTimestamps : List (SeriesRef × UInt64)) (e : Slot K) :
    Prop where
  sound : e.2.Sound durationMs
  fits : Fits e.2 e.1
  bounded : e.1 = .active → ∀ s ∈ e.2.samples,
    ∃ last, lastTimestamps.lookup s.series = some last ∧ s.timestampMs ≤ last

theorem Inv.slotOk (h : head.Inv durationMs) (hbounded : head.Bounded) :
    ∀ e ∈ head.slots, SlotOk durationMs head.lastTimestamps e := by
  rintro ⟨place, w⟩ he
  cases place with
  | retained => exact ⟨h.retained w (mem_slots.mp he), trivial, nofun⟩
  | active =>
    obtain ⟨hsound, hlane⟩ := h.active w (mem_slots.mp he)
    exact ⟨hsound, hlane, fun _ => hbounded w (mem_slots.mp he)⟩
  | late range =>
    obtain ⟨hsound, hlane⟩ := h.late _ (mem_slots.mp he)
    exact ⟨hsound, hlane, nofun⟩

theorem inv_of_slotOk (hduration : head.config.windowDurationMs = .ok durationMs)
    (h : ∀ e ∈ head.slots, SlotOk durationMs head.lastTimestamps e) :
    head.Inv durationMs ∧ head.Bounded := by
  have hmem : ∀ {place w}, (place, w) ∈ head.slots → _ := fun he => h _ he
  refine ⟨⟨hduration, fun w hw => (@hmem .retained w (mem_slots.mpr hw)).sound, fun w hw => ?_,
    fun e he => ?_⟩, fun w hw => (@hmem .active w (mem_slots.mpr hw)).bounded rfl⟩
  · have hok := @hmem .active w (mem_slots.mpr hw)
    exact ⟨hok.sound, hok.fits⟩
  · have hok := @hmem (.late e.1) e.2 (mem_slots.mpr he)
    exact ⟨hok.sound, hok.fits⟩

theorem Fits.refill {w w' : HeadWindow K} {place : WindowPlace} (h : Fits w place)
    (hslot : w.SameSlot w') : Fits w' place := by
  cases place with
  | retained => trivial
  | active => exact hslot.lane_eq.trans h
  | late range =>
    refine ⟨hslot.lane_eq.trans h.1, h.2.trans ?_⟩
    rw [hslot.start_eq, hslot.end_eq]

theorem held_slots : head.held = samplesOf (head.slots.map Prod.snd) := by
  rw [held, map_snd_slots]

theorem admits_active (h : head.Inv durationMs) (hbounded : head.Bounded) {active : HeadWindow K}
    (hactive : head.window = some active)
    (hroute : head.routeToOoo sample.series sample.timestampMs = false)
    (hend : ¬ active.endMs ≤ sample.timestampMs) : active.Admits sample := by
  simp only [routeToOoo, Bool.or_eq_false_iff, hactive, Option.any_some, decide_eq_false_iff_not,
    UInt64.not_lt] at hroute
  obtain ⟨hlast, hstart⟩ := hroute
  refine ⟨⟨hstart, fun _ => UInt64.not_le.mp hend⟩, fun _ e he => ?_⟩
  have hmem : (⟨sample.series, e.1, e.2⟩ : Sample) ∈ active.samples :=
    (HeadWindow.mem_entriesOf (h.active active hactive).1.wf).mpr he
  obtain ⟨last, hlookup, hle⟩ := hbounded active hactive _ hmem
  rw [hlookup, Option.any_some, decide_eq_false_iff_not, UInt64.not_lt] at hlast
  exact UInt64.le_trans hle hlast

section Place
variable {faults : HeadWindow.SampleFaults} {contribution : Option RecordedSampleContribution}
  {outcome : Except IoError Bool × HeadBuffer K × Option (HeadWindow K)} {place : WindowPlace}
  {w : HeadWindow K} {rest : List (Slot K)}

theorem PlacedIn.slotOk {range : UInt64 × UInt64}
    (hplaced : head.PlacedIn range faults contribution sample outcome place w rest)
    (hwindow : range = windowFor sample.timestampMs durationMs) (h : head.Inv durationMs)
    (hbounded : head.Bounded) :
    SlotOk durationMs head.lastTimestamps (place, w) ∧ w.Admits sample := by
  subst hwindow
  have hrange := windowFor_inRange h.duration_ne_zero sample.timestampMs
  have hplace := hplaced.place_eq
  rcases hplaced.before with ⟨hperm, -, hend⟩ | ⟨gone, -, -, rfl, -⟩
  · have hslot : (place, w) ∈ head.slots := hperm.mem_iff.mpr mem_cons_self
    have hok := h.slotOk hbounded _ hslot
    refine ⟨hok, ?_⟩
    cases hroute : head.routeToOoo sample.series sample.timestampMs with
    | true =>
      rw [hroute, if_pos rfl] at hplace
      subst hplace
      obtain ⟨hlane, hkey⟩ := hok.fits
      rw [hkey] at hrange
      exact ⟨hrange, fun hin => by rw [hlane] at hin; cases hin⟩
    | false =>
      rw [hroute, if_neg Bool.false_ne_true] at hplace
      subst hplace
      exact admits_active h hbounded (mem_slots.mp hslot) hroute (hend rfl)
  refine ⟨⟨HeadWindow.sound_new (windowFor_aligned ..) .., ?_, fun _ _ hs => by cases hs⟩, hrange,
    fun _ _ he => by cases he⟩
  cases hroute : head.routeToOoo sample.series sample.timestampMs with
  | true =>
    rw [hroute, if_pos rfl] at hplace
    exact hplace ▸ ⟨rfl, rfl⟩
  | false =>
    rw [hroute, if_neg Bool.false_ne_true] at hplace
    exact hplace ▸ rfl

/-- A placed sample is in the head or rejected, and what rotated out is all that left. The last
timestamps may move on after it. -/
theorem PlacedIn.conserves {range : UInt64 × UInt64}
    (hplaced : head.PlacedIn range faults contribution sample outcome place w rest)
    (hwindow : range = windowFor sample.timestampMs durationMs) (h : head.Inv durationMs)
    (hbounded : head.Bounded) {lastTimestamps : List (SeriesRef × UInt64)}
    (hlater : ∀ series last, head.lastTimestamps.lookup series = some last →
      ∃ last', lastTimestamps.lookup series = some last' ∧ last ≤ last')
    (hsample : outcome.1 = .ok true →
      ∃ last, lastTimestamps.lookup sample.series = some last ∧ sample.timestampMs ≤ last) :
    (∀ e ∈ outcome.2.1.slots, SlotOk durationMs lastTimestamps e) ∧
      (∀ w ∈ outcome.2.2, w.Sound durationMs) ∧
      outcome.2.1.held + samplesOf outcome.2.2.toList =
        acceptedBy outcome.1 sample + head.held := by
  obtain ⟨hok, hadmits⟩ := hplaced.slotOk hwindow h hbounded
  have hrecorded := HeadWindow.recordSample_recorded head.blockSize_le hok.sound hadmits faults
    contribution
  have hmono : ∀ {e : Slot K}, SlotOk durationMs head.lastTimestamps e →
      SlotOk durationMs lastTimestamps e := by
    intro e he
    refine ⟨he.sound, he.fits, fun hactive s hs => ?_⟩
    obtain ⟨last, hlookup, hle⟩ := he.bounded hactive s hs
    obtain ⟨last', hlookup', hle'⟩ := hlater _ _ hlookup
    exact ⟨last', hlookup', UInt64.le_trans hle hle'⟩
  have hslots : ∀ e ∈ rest, e ∈ head.slots := by
    intro e he
    rcases hplaced.before with ⟨hperm, -⟩ | ⟨gone, hperm, -⟩
    · exact hperm.mem_iff.mpr (mem_cons_of_mem _ he)
    · exact hperm.mem_iff.mpr (mem_append_right _ he)
  refine ⟨?_, ?_, ?_⟩
  · intro e he
    rcases mem_cons.mp (hplaced.after.mem_iff.mp he) with rfl | he
    · refine ⟨hrecorded.sound, hok.fits.refill hrecorded.toSameSlot, ?_⟩
      intro hactive s hs
      rcases hrecorded.mem_samples hs with ⟨rfl, hresult⟩ | hs
      · exact hsample (hplaced.result_eq.trans hresult)
      · exact (hmono hok).bounded hactive s hs
    · exact hmono (h.slotOk hbounded e (hslots e he))
  · intro completed hcompleted
    rcases hplaced.before with ⟨-, hnone, -⟩ | ⟨gone, hperm, hgone, -⟩
    · rw [hnone] at hcompleted
      cases hcompleted
    obtain ⟨w, hw, hrestored⟩ := exists_mem_of_forall₂ hgone (Option.mem_toList.mpr hcompleted)
    have hslot : (WindowPlace.active, w) ∈ head.slots :=
      hperm.mem_iff.mpr (mem_append_left _ (mem_map.mpr ⟨w, hw, rfl⟩))
    exact (h.slotOk hbounded _ hslot).sound.kept hrestored.toKept
  rw [held_slots, samplesOf_perm (hplaced.after.map Prod.snd), held_slots, map_cons,
    samplesOf_cons, hrecorded.samples_eq, ← hplaced.result_eq]
  rcases hplaced.before with ⟨hperm, hnone, -⟩ | ⟨gone, hperm, hgone, rfl, -⟩
  · rw [hnone, samplesOf_perm (hperm.map Prod.snd), Option.toList_none, samplesOf_nil, add_zero,
      map_cons, samplesOf_cons, add_assoc]
  have hempty : (HeadWindow.newWithLaneAndCoverage K range.1 range.2
      (head.routeToOoo sample.series sample.timestampMs) head.liveCoverageTracking).samples =
      [] := rfl
  rw [samplesOf_restored hgone, samplesOf_perm (hperm.map Prod.snd), map_append,
    samplesOf_append, map_map, hempty]
  simp only [Function.comp_def, map_id', Multiset.coe_nil]
  abel

end Place

variable {head' : HeadBuffer K}

theorem SameWindows.inv (hsame : head.SameWindows head')
    (h : head.Inv durationMs) : head'.Inv durationMs where
  duration := by rw [hsame.config_eq]; exact h.duration
  retained := by rw [hsame.retained_eq]; exact h.retained
  active := by rw [hsame.window_eq]; exact h.active
  late := by rw [hsame.late_eq]; exact h.late

theorem SameWindows.held_eq (hsame : head.SameWindows head') : head'.held = head.held := by
  rw [HeadBuffer.held_eq, HeadBuffer.held_eq, hsame.window_eq, hsame.late_eq, hsame.retained_eq]

def laterTimestamp (previous : Option UInt64) (timestampMs : UInt64) : UInt64 :=
  match previous with
  | some previous => if previous < timestampMs then timestampMs else previous
  | none => timestampMs

theorem le_laterTimestamp (previous : Option UInt64) (timestampMs : UInt64) :
    timestampMs ≤ laterTimestamp previous timestampMs := by
  unfold laterTimestamp
  split
  · split
    · exact UInt64.le_refl _
    · rename_i hnot
      exact UInt64.not_lt.mp hnot
  · exact UInt64.le_refl _

theorem previous_le_laterTimestamp (previous timestampMs : UInt64) :
    previous ≤ laterTimestamp (some previous) timestampMs := by
  rw [laterTimestamp]
  split
  · rename_i hlt
    exact UInt64.le_of_lt hlt
  · exact UInt64.le_refl _

theorem touchLastTimestamp_lookup (series : SeriesRef) (timestampMs : UInt64)
    (series' : SeriesRef) :
    (head.touchLastTimestamp series timestampMs).lastTimestamps.lookup series' =
      if series' = series then
        some (laterTimestamp (head.lastTimestamps.lookup series) timestampMs)
      else head.lastTimestamps.lookup series' := by
  unfold touchLastTimestamp
  cases hlookup : head.lastTimestamps.lookup series with
  | none => exact KeyedList.lookup_append_singleton hlookup
  | some previous =>
    dsimp only [laterTimestamp]
    split
    · exact KeyedList.lookup_set (by rw [hlookup]; rfl)
    split
    · rename_i hseries
      rw [hseries]
      exact hlookup
    · rfl

structure Conserved (durationMs : UInt64) (start : HeadBuffer K) (head : HeadBuffer K)
    (flushed : List (HeadWindow K)) (accepted : List Sample) : Prop where
  inv : head.Inv durationMs
  bounded : head.Bounded
  flushed_sound : ∀ w ∈ flushed, w.Sound durationMs
  held_eq : head.held + samplesOf flushed = accepted + start.held

variable {tracked : Bool} {series : SeriesRef} {x : OwnedSample} {completed : Option (HeadWindow K)}
  {accepted : List Sample}

theorem RecordStep.conserved
    (hstep : RecordStep tracked durationMs series head x head' completed accepted)
    (h : head.Inv durationMs) (hbounded : head.Bounded) :
    Conserved durationMs head head' completed.toList accepted := by
  cases hstep with
  | dropped => exact ⟨h, hbounded, nofun, by simp⟩
  | placed hplaced hrejected =>
    rcases placeSample_cases hplaced with ⟨error, hsame⟩ | ⟨place, w, rest, hplacedIn⟩
    · obtain ⟨-, rfl, rfl⟩ := hsame
      exact ⟨h, hbounded, nofun, by simp⟩
    obtain ⟨hslots, hsound, hheld⟩ := hplacedIn.conserves rfl h hbounded
      (fun _ last hlast => ⟨last, hlast, UInt64.le_refl _⟩) fun hok => absurd hok hrejected
    rw [← hplacedIn.tables.last_eq] at hslots
    obtain ⟨hinv, hbounded'⟩ := inv_of_slotOk (hplacedIn.tables.config_eq ▸ h.duration) hslots
    refine ⟨hinv, hbounded', fun w hw => hsound w (Option.mem_toList.mp hw), ?_⟩
    rw [hheld, acceptedBy_of_ne hrejected, Multiset.coe_nil]
  | @accepted head₁ head₂ _ hguard hplaced hguarded =>
    rcases placeSample_cases hplaced with ⟨error, hsame⟩ | ⟨place, w, rest, hplacedIn⟩
    · cases hsame
    have hlast : head₂.lastTimestamps = head.lastTimestamps := by
      rw [guardAccepted_eq hguarded]
      exact hplacedIn.tables.last_eq
    have hlookup := fun s => hlast ▸ head₂.touchLastTimestamp_lookup series x.timestampMs s
    have hlater : ∀ s last, head.lastTimestamps.lookup s = some last → ∃ last',
        (head₂.touchLastTimestamp series x.timestampMs).lastTimestamps.lookup s = some last' ∧
          last ≤ last' := by
      intro s last hs
      rw [hlookup]
      split
      · rename_i hseries
        rw [← hseries, hs]
        exact ⟨_, rfl, previous_le_laterTimestamp ..⟩
      · exact ⟨last, hs, UInt64.le_refl _⟩
    obtain ⟨hslots, hsound, hheld⟩ := hplacedIn.conserves rfl h hbounded hlater fun _ =>
      ⟨_, (hlookup series).trans (if_pos rfl), le_laterTimestamp ..⟩
    obtain ⟨hwindows, hconfig, -⟩ := accepted_same hguarded series x.timestampMs
    obtain ⟨hinv, hbounded'⟩ := @inv_of_slotOk _
      (head₂.touchLastTimestamp series x.timestampMs).clearSelectorIndexCache durationMs
      (hconfig ▸ hplacedIn.tables.config_eq ▸ h.duration) (by rw [hwindows]; exact hslots)
    refine ⟨hinv, hbounded', fun w hw => hsound w (Option.mem_toList.mp hw), ?_⟩
    rw [held_slots, hwindows, ← held_slots]
    exact hheld

theorem Recording.conserved {batch : List OwnedSample} {start : HeadBuffer K}
    {flushed : List (HeadWindow K)}
    (hrecording : Recording tracked durationMs series batch start head flushed accepted)
    (h : start.Inv durationMs) (hbounded : start.Bounded) :
    Conserved durationMs start head flushed accepted := by
  induction hrecording with
  | start => exact ⟨h, hbounded, nofun, by simp⟩
  | step _ _ hstep ih =>
    have hnext := hstep.conserved ih.inv ih.bounded
    refine ⟨hnext.inv, hnext.bounded, fun w hw => ?_, ?_⟩
    · exact (mem_append.mp hw).elim (ih.flushed_sound w) (hnext.flushed_sound w)
    · rw [samplesOf_append, ← Multiset.coe_add, add_left_comm, hnext.held_eq, add_left_comm,
        add_comm (samplesOf _), ih.held_eq]
      abel

end HeadBuffer

end Chronoxide
