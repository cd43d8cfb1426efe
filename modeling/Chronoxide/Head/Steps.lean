import Chronoxide.Head.Buffer
import Mathlib.Data.List.Forall2

/-! The windows of a head by their place, and what a call does to them: a sample is placed in one
window, windows leave the head, and a publication freezes one window after the other. -/

namespace Chronoxide
open Codec List

theorem exists_mem_of_forall₂ {α β : Type} {R : α → β → Prop} {l : List α} {l' : List β}
    (h : List.Forall₂ R l l') {b : β} (hb : b ∈ l') : ∃ a ∈ l, R a b := by
  induction h with
  | nil => cases hb
  | cons hrel _ ih =>
    rcases mem_cons.mp hb with rfl | hb
    · exact ⟨_, mem_cons_self, hrel⟩
    · obtain ⟨a, ha, hrel⟩ := ih hb
      exact ⟨a, mem_cons_of_mem _ ha, hrel⟩

inductive WindowPlace
  | retained
  | active
  | late (range : UInt64 × UInt64)

section
variable {K : HeadCodecs}

namespace HeadWindow

structure SameCoverage (w w' : HeadWindow K) : Prop where
  tracking_eq : w'.coverageTracking = w.coverageTracking
  coverage_eq : w'.coverage = w.coverage
  range_eq : w'.recordedOrderRange = w.recordedOrderRange
  orders_eq : w'.recordedOrders = w.recordedOrders

structure Restored (w w' : HeadWindow K) : Prop extends Kept w w', SameCoverage w w'

theorem Restored.refl (w : HeadWindow K) : w.Restored w := ⟨.refl w, ⟨rfl, rfl, rfl, rfl⟩⟩

theorem sealAllSeries_restored (w : HeadWindow K) : w.Restored w.sealAllSeries :=
  ⟨w.sealAllSeries_kept, ⟨rfl, rfl, rfl, rfl⟩⟩

theorem forall₂_restored (windows : List (HeadWindow K)) : List.Forall₂ Restored windows windows :=
  forall₂_same.mpr fun w _ => .refl w

theorem tryFreeze_cases (w : HeadWindow K) (faults : FreezeFaults) :
    (∃ sealed, w.Restored sealed ∧ w.tryFreeze faults = .ok sealed.toFragment) ∨
      ∃ error w', w.Restored w' ∧ w.tryFreeze faults = .error (error, w') := by
  have hsealed : w.Restored (w.trySealAllSeries faults.block).2 :=
    ⟨w.trySealAllSeries_kept faults.block, ⟨rfl, rfl, rfl, rfl⟩⟩
  unfold tryFreeze
  split
  · exact .inr ⟨_, _, .refl w, rfl⟩
  split
  · rename_i hresult
    rw [hresult] at hsealed
    exact .inr ⟨_, _, hsealed, rfl⟩
  rename_i sealed hresult
  rw [hresult] at hsealed
  split
  · exact .inr ⟨_, _, hsealed, rfl⟩
  split
  · exact .inr ⟨_, _, hsealed, rfl⟩
  · exact .inl ⟨sealed, hsealed, rfl⟩

end HeadWindow

abbrev Slot (K : HeadCodecs) := WindowPlace × HeadWindow K

/-- The slices handed to `record_samples` have a length of 64 bits. -/
abbrev SampleSlice := { samples : List (UInt64 × SampleValue) // samples.length < 2 ^ 64 }

def returnedWindows {α : Type} (windows : α → List (HeadWindow K)) (result : Except IoError α) :
    List (HeadWindow K) :=
  match result with
  | .ok value => windows value
  | .error _ => []

namespace HeadBuffer

def slotsOf (retained : List (HeadWindow K)) (active : Option (HeadWindow K))
    (late : List ((UInt64 × UInt64) × HeadWindow K)) : List (Slot K) :=
  retained.map (fun w => (.retained, w)) ++ active.toList.map (fun w => (.active, w)) ++
    late.map fun e => (.late e.1, e.2)

def slots (head : HeadBuffer K) : List (Slot K) :=
  slotsOf head.retainedWindows head.window head.oooWindows

variable {head head' head'' : HeadBuffer K}

theorem map_snd_slots (head : HeadBuffer K) : head.slots.map Prod.snd = head.windows := by
  simp [slots, slotsOf, windows, Function.comp_def]

theorem mem_slots {place : WindowPlace} {w : HeadWindow K} : (place, w) ∈ head.slots ↔
    match place with
    | .retained => w ∈ head.retainedWindows
    | .active => w ∈ head.window
    | .late range => (range, w) ∈ head.oooWindows := by
  cases place <;> simp [slots, slotsOf]

structure SameTables (head head' : HeadBuffer K) : Prop where
  config_eq : head'.config = head.config
  last_eq : head'.lastTimestamps = head.lastTimestamps
  guards_eq : head'.kindGuards = head.kindGuards

structure SameCounters (head head' : HeadBuffer K) : Prop where
  tracking_eq : head'.liveCoverageTracking = head.liveCoverageTracking
  sequence_eq : head'.nextFragmentSequence = head.nextFragmentSequence

/-- The place and the window that take a sample: the window of that place, or a new one, for which
the active window may have to leave. -/
structure PlacedIn (head : HeadBuffer K) (range : UInt64 × UInt64)
    (faults : HeadWindow.SampleFaults) (contribution : Option RecordedSampleContribution)
    (sample : Sample) (outcome : Except IoError Bool × HeadBuffer K × Option (HeadWindow K))
    (place : WindowPlace) (w : HeadWindow K) (rest : List (Slot K)) : Prop where
  place_eq : place = if head.routeToOoo sample.series sample.timestampMs then .late range else .active
  before : (head.slots.Perm ((place, w) :: rest) ∧ outcome.2.2 = none ∧
      (place = .active → ¬w.endMs ≤ sample.timestampMs)) ∨
    ∃ gone, head.slots.Perm (gone.map (fun a => (.active, a)) ++ rest) ∧
      List.Forall₂ HeadWindow.Restored gone outcome.2.2.toList ∧
      w = .newWithLaneAndCoverage K range.1 range.2
        (head.routeToOoo sample.series sample.timestampMs) head.liveCoverageTracking ∧
      ∃ accepted, outcome.1 = .ok accepted
  result_eq : outcome.1 = (HeadWindow.recordSample head.config w faults contribution sample).1
  after : outcome.2.1.slots.Perm
    ((place, (HeadWindow.recordSample head.config w faults contribution sample).2) :: rest)
  tables : head.SameTables outcome.2.1
  counters : head.SameCounters outcome.2.1

section
variable {retained : List (HeadWindow K)} {active : Option (HeadWindow K)}
  {late late' : List ((UInt64 × UInt64) × HeadWindow K)}

theorem slotsOf_active_perm :
    (slotsOf retained active late).Perm
      (active.toList.map (fun w => (.active, w)) ++ slotsOf retained none late) := by
  simp only [slotsOf, Option.toList_none, map_nil, append_nil, ← append_assoc]
  exact perm_append_comm.append_right _

theorem slotsOf_late_perm {range : UInt64 × UInt64} {w : HeadWindow K}
    (h : late.Perm ((range, w) :: late')) :
    (slotsOf retained active late).Perm ((.late range, w) :: slotsOf retained active late') := by
  refine ((h.map _).append_left _).trans ?_
  exact perm_middle

end

theorem placeSample_cases {range : UInt64 × UInt64} {faults : HeadWindow.SampleFaults}
    {contribution : Option RecordedSampleContribution} {sample : Sample}
    {outcome : Except IoError Bool × HeadBuffer K × Option (HeadWindow K)}
    (houtcome : head.placeSample range faults contribution sample = outcome) :
    (∃ error, outcome = (.error error, head, none)) ∨
      ∃ place w rest, head.PlacedIn range faults contribution sample outcome place w rest := by
  subst houtcome
  -- a new active window takes the place of the one there is
  have hrotated : head.routeToOoo sample.series sample.timestampMs = false → ∀ accepted next,
      HeadWindow.recordSample head.config (.newWithLaneAndCoverage K range.1 range.2 false
        head.liveCoverageTracking) faults contribution sample = (.ok accepted, next) →
      head.PlacedIn range faults contribution sample (.ok accepted, { head with window := some next },
        head.window.map fun completed =>
          if head.liveCoverageTracking then completed else completed.sealAllSeries) .active
        (.newWithLaneAndCoverage K range.1 range.2 false head.liveCoverageTracking)
        (slotsOf head.retainedWindows none head.oooWindows) := by
    intro hroute accepted next hresult
    refine ⟨by rw [hroute]; rfl, .inr ⟨head.window.toList, slotsOf_active_perm, ?_,
      by rw [hroute], accepted, rfl⟩, by rw [hresult], ?_, ⟨rfl, rfl, rfl⟩, ⟨rfl, rfl⟩⟩
    · cases head.window with
      | none => exact .nil
      | some active =>
        refine .cons ?_ .nil
        split
        · exact .refl active
        · exact active.sealAllSeries_restored
    · rw [hresult]
      exact slotsOf_active_perm
  unfold placeSample
  dsimp only
  split
  · rename_i hroute
    split
    · rename_i target hlookup
      obtain ⟨front, back, htable, -, hset⟩ := KeyedList.exists_split hlookup
      refine .inr ⟨.late range, target, slotsOf head.retainedWindows head.window (front ++ back),
        by rw [hroute]; rfl, .inl ⟨?_, rfl, nofun⟩, rfl, ?_, ⟨rfl, rfl, rfl⟩, ⟨rfl, rfl⟩⟩
      · rw [slots, htable]
        exact slotsOf_late_perm perm_middle
      · simp only [slots, hset]
        exact slotsOf_late_perm perm_middle
    split
    · exact .inl ⟨_, rfl⟩
    rename_i accepted next hresult
    refine .inr ⟨.late range, .newWithLaneAndCoverage K range.1 range.2 true
      head.liveCoverageTracking, head.slots, by rw [hroute]; rfl,
      .inr ⟨[], .refl _, .nil, by rw [hroute], accepted, rfl⟩, by rw [hresult], ?_,
      ⟨rfl, rfl, rfl⟩, ⟨rfl, rfl⟩⟩
    rw [hresult]
    exact slotsOf_late_perm (KeyedList.insertBy_perm ..)
  rename_i hroute
  rw [Bool.not_eq_true] at hroute
  split
  · split
    · exact .inl ⟨_, rfl⟩
    · rename_i hresult
      exact .inr ⟨_, _, _, hrotated hroute _ _ hresult⟩
  rename_i active hactive
  split
  · split
    · exact .inl ⟨_, rfl⟩
    · rename_i hresult
      exact .inr ⟨_, _, _, hrotated hroute _ _ hresult⟩
  rename_i hend
  refine .inr ⟨.active, active, slotsOf head.retainedWindows none head.oooWindows,
    by rw [hroute]; rfl, .inl ⟨?_, rfl, fun _ => hend⟩, rfl, slotsOf_active_perm,
    ⟨rfl, rfl, rfl⟩, ⟨rfl, rfl⟩⟩
  rw [slots, hactive]
  exact slotsOf_active_perm

structure Leaves (head head' : HeadBuffer K) (out : List (HeadWindow K)) : Prop where
  slots_perm : ∃ gone windows, head.slots.Perm (gone ++ head'.slots) ∧
    List.Forall₂ HeadWindow.Restored (gone.map Prod.snd) windows ∧ windows.Perm out
  tables : head.SameTables head'
  counters : head.SameCounters head'

theorem forall₂_sealAllSeries (windows : List (HeadWindow K)) :
    List.Forall₂ HeadWindow.Restored windows (windows.map HeadWindow.sealAllSeries) :=
  forall₂_map_right_iff.mpr (forall₂_same.mpr fun w _ => w.sealAllSeries_restored)

variable (head)

open HeadWindow

theorem drain_leaves : head.Leaves head.drain.2 head.drain.1.toList := by
  refine ⟨⟨_, _, slotsOf_active_perm, ?_, .refl _⟩, ⟨rfl, rfl, rfl⟩, ⟨rfl, rfl⟩⟩
  rw [map_map]
  change List.Forall₂ _ (head.window.toList.map id) (head.window.map sealAllSeries).toList
  rw [map_id, Option.toList_map]
  exact forall₂_sealAllSeries _

theorem drainWindows_leaves : head.Leaves head.drainWindows.2 head.drainWindows.1 := by
  refine ⟨⟨slotsOf head.retainedWindows none [] ++ slotsOf [] none head.oooWindows ++
    slotsOf [] head.window [], head.retainedWindows ++
      head.oooWindows.map (fun e => e.2.sealAllSeries) ++
      (head.window.map sealAllSeries).toList, ?_, ?_, (mergeSort_perm _ _).symm⟩,
    ⟨rfl, rfl, rfl⟩, ⟨rfl, rfl⟩⟩
  · simp only [slots, slotsOf, drainWindows, clearSelectorIndexCache, Option.toList_none,
      map_nil, append_nil, nil_append, append_assoc]
    exact perm_append_comm.append_left _
  have hlate : List.Forall₂ HeadWindow.Restored (head.oooWindows.map Prod.snd)
      (head.oooWindows.map fun e => e.2.sealAllSeries) := by
    have hsealed := forall₂_sealAllSeries (head.oooWindows.map Prod.snd)
    rwa [map_map] at hsealed
  rw [Option.toList_map]
  simp only [slotsOf, map_append, map_map, Option.toList_none, map_nil,
    append_nil, nil_append, Function.comp_def, map_id']
  exact rel_append (rel_append (forall₂_restored _) hlate)
    (forall₂_sealAllSeries _)

theorem takeOutOfOrderWindow_leaves (startMs endMs : UInt64) :
    head.Leaves (head.takeOutOfOrderWindow startMs endMs).2
      (head.takeOutOfOrderWindow startMs endMs).1.toList := by
  unfold takeOutOfOrderWindow
  split
  · exact ⟨⟨[], [], .refl _, .nil, .refl _⟩, ⟨rfl, rfl, rfl⟩, ⟨rfl, rfl⟩⟩
  rename_i removed hlookup
  obtain ⟨front, back, htable, hremove, -⟩ := KeyedList.exists_split hlookup
  refine ⟨⟨[(.late (startMs, endMs), removed)], [removed], ?_, .cons (.refl _) .nil, .refl _⟩,
    ⟨rfl, rfl, rfl⟩, ⟨rfl, rfl⟩⟩
  simp only [slots, clearSelectorIndexCache, hremove]
  rw [htable]
  exact slotsOf_late_perm perm_middle

variable {head}

/-- Slots are frozen one after the other, under successive sequences, until one fails. -/
inductive Freezes {κ : Type} : Nat → List (κ × HeadWindow K) → List (κ × HeadWindow K) →
    List (FrozenHeadFragment K) → Option IoError → Prop
  | done (sequence) : Freezes sequence [] [] [] none
  | stopped (sequence slots error) : Freezes sequence slots slots [] (some error)
  | empty {sequence rest rest' fragments error} {w : HeadWindow K} (place : κ)
      (hnone : w.hasSamples = false) (hrest : Freezes sequence rest rest' fragments error) :
    Freezes sequence ((place, w) :: rest) ((place, w) :: rest') fragments error
  | frozen {sequence rest rest' fragments error} {w sealed : HeadWindow K} (place : κ)
      (hsome : w.hasSamples = true) (hsealed : w.Restored sealed)
      (hrest : Freezes (sequence + 1) rest rest' fragments error) :
    Freezes sequence ((place, w) :: rest) ((place, w.emptyTailLike) :: rest')
      ({ sealed.toFragment with publicationSequence := sequence } :: fragments) error
  | failed {sequence} {w w' : HeadWindow K} (place : κ) (rest error)
      (hsome : w.hasSamples = true) (hrestored : w.Restored w') :
    Freezes sequence ((place, w) :: rest) ((place, w') :: rest) [] (some error)

theorem freezeSlots_freezes {κ : Type} (slots : List (κ × HeadWindow K)) (sequence : Nat)
    (faults : Nat → HeadWindow.FreezeFaults) :
    Freezes sequence slots (freezeSlots sequence faults slots).slots
        (freezeSlots sequence faults slots).fragments (freezeSlots sequence faults slots).error ∧
      (freezeSlots sequence faults slots).nextSequence =
        sequence + (freezeSlots sequence faults slots).fragments.length := by
  induction slots generalizing sequence faults with
  | nil => exact ⟨.done sequence, rfl⟩
  | cons e rest ih =>
    obtain ⟨place, w⟩ := e
    unfold freezeSlots tryFreezeWindowSlot
    cases hsamples : w.hasSamples with
    | false =>
      obtain ⟨hrest, hnext⟩ := ih sequence fun n => faults (n + 1)
      exact ⟨.empty place hsamples hrest, hnext⟩
    | true =>
      rcases w.tryFreeze_cases (faults 0) with ⟨sealed, hsealed, hok⟩ | ⟨error, w', hrestored, herror⟩
      · obtain ⟨hrest, hnext⟩ := ih (sequence + 1) fun n => faults (n + 1)
        rw [hok]
        refine ⟨.frozen place hsamples hsealed hrest, hnext.trans ?_⟩
        exact Nat.add_right_comm ..
      · rw [herror]
        exact ⟨.failed place rest error hsamples hrestored, rfl⟩

section Freezing
variable {κ κ' : Type} {sequence : Nat} {before after before' after' : List (κ × HeadWindow K)}
  {fragments fragments' : List (FrozenHeadFragment K)} {error error' : Option IoError}

theorem Freezes.forall₂ (h : Freezes sequence before after fragments error) :
    List.Forall₂ (fun e e' => e'.1 = e.1 ∧ (e.2.Restored e'.2 ∨ e'.2 = e.2.emptyTailLike))
      before after := by
  have hkept (e : κ × HeadWindow K) : e.1 = e.1 ∧ (e.2.Restored e.2 ∨ e.2 = e.2.emptyTailLike) :=
    ⟨rfl, .inl (.refl _)⟩
  induction h with
  | done => exact .nil
  | stopped => exact forall₂_same.mpr fun e _ => hkept e
  | empty _ _ _ ih => exact .cons (hkept _) ih
  | frozen _ _ _ _ ih => exact .cons ⟨rfl, .inr rfl⟩ ih
  | failed _ _ _ _ hrestored =>
    exact .cons ⟨rfl, .inl hrestored⟩ (forall₂_same.mpr fun e _ => hkept e)

theorem Freezes.map (f : κ → κ') (h : Freezes sequence before after fragments error) :
    Freezes sequence (before.map fun e => (f e.1, e.2)) (after.map fun e => (f e.1, e.2)) fragments
      error := by
  induction h with
  | done => exact .done _
  | stopped _ _ error => exact .stopped _ _ error
  | empty place hnone _ ih => exact .empty (f place) hnone ih
  | frozen place hsome hsealed _ ih => exact .frozen (f place) hsome hsealed ih
  | failed place rest error hsome hrestored => exact .failed (f place) _ error hsome hrestored

theorem Freezes.untouched {error : IoError}
    (h : Freezes sequence before after fragments (some error)) (rest : List (κ × HeadWindow K)) :
    Freezes sequence (before ++ rest) (after ++ rest) fragments (some error) := by
  generalize herror : some error = failure at h
  induction h with
  | done => cases herror
  | stopped => exact .stopped _ _ _
  | empty place hnone _ ih => exact .empty place hnone (ih herror)
  | frozen place hsome hsealed _ ih => exact .frozen place hsome hsealed (ih herror)
  | failed place _ error hsome hrestored => exact .failed place _ error hsome hrestored

theorem Freezes.append (h : Freezes sequence before after fragments none)
    (h' : Freezes (sequence + fragments.length) before' after' fragments' error) :
    Freezes sequence (before ++ before') (after ++ after') (fragments ++ fragments') error := by
  generalize hnone : none = failure at h
  induction h with
  | done => exact h'
  | stopped => cases hnone
  | empty place hsamples _ ih => exact .empty place hsamples (ih h' hnone)
  | frozen place hsome hsealed _ ih =>
    refine .frozen place hsome hsealed (ih ?_ hnone)
    rwa [Nat.add_assoc, Nat.add_comm 1]
  | failed => cases hnone

theorem Freezes.mem_fragments (h : Freezes sequence before after fragments error)
    {fragment : FrozenHeadFragment K} (hf : fragment ∈ fragments) :
    ∃ e ∈ before, ∃ sealed, e.2.Restored sealed ∧
      fragment = { sealed.toFragment with publicationSequence := fragment.publicationSequence } := by
  induction h with
  | done => cases hf
  | stopped => cases hf
  | empty place hnone _ ih =>
    obtain ⟨e, he, hrel⟩ := ih hf
    exact ⟨e, mem_cons_of_mem _ he, hrel⟩
  | frozen place hsome hsealed _ ih =>
    rcases mem_cons.mp hf with rfl | hf
    · exact ⟨_, mem_cons_self, _, hsealed, rfl⟩
    · obtain ⟨e, he, hrel⟩ := ih hf
      exact ⟨e, mem_cons_of_mem _ he, hrel⟩
  | failed => cases hf

theorem Freezes.sequences (h : Freezes sequence before after fragments error) :
    fragments.map (·.publicationSequence) = range' sequence fragments.length := by
  induction h with
  | done => rfl
  | stopped => rfl
  | empty _ _ _ ih => exact ih
  | frozen _ _ _ _ ih => rw [map_cons, length_cons, range'_succ, ih]
  | failed => rfl

end Freezing

/-- A publication freezes the slots; the retained windows that are empty may go. -/
structure Published (head head' : HeadBuffer K) (fragments : List (FrozenHeadFragment K))
    (ok : Prop) : Prop where
  config_eq : head'.config = head.config
  last_eq : head'.lastTimestamps = head.lastTimestamps
  tracking_eq : head'.liveCoverageTracking = head.liveCoverageTracking
  sequence_eq : head'.nextFragmentSequence = head.nextFragmentSequence + fragments.length
  guards_eq : head'.kindGuards = head.kindGuards ∧ fragments = [] ∨
    ∃ guarded, head.activateKindGuards = .ok guarded ∧ head'.kindGuards = guarded.kindGuards
  freezes : ∃ slots error stays,
    Freezes head.nextFragmentSequence head.slots slots fragments error ∧ (ok → error = none) ∧
      (∀ e : Slot K, stays e = false → e.2.hasSamples = false) ∧ head'.slots = slots.filter stays

section
variable (head) (faults : PublicationFaults)

theorem freezeRetained_cases : ∃ (windows : List (HeadWindow K)) (fragments : _) (error : _),
    Freezes head.nextFragmentSequence (head.retainedWindows.map fun w => (WindowPlace.retained, w))
        (windows.map fun w => (.retained, w)) fragments error ∧
      head.freezeRetained faults = ((error.elim (.ok ()) .error, { head with
        retainedWindows := windows.filter hasSamples
        nextFragmentSequence := head.nextFragmentSequence + fragments.length
        selectorIndex := error.elim head.selectorIndex fun _ => none }), fragments) := by
  obtain ⟨hfreezes, hnext⟩ := freezeSlots_freezes (head.retainedWindows.map fun w => ((), w))
    head.nextFragmentSequence faults.retained
  have hmap := hfreezes.map fun _ => WindowPlace.retained
  unfold freezeRetained
  dsimp only
  generalize freezeSlots head.nextFragmentSequence faults.retained
    (head.retainedWindows.map fun w => ((), w)) = freezing at *
  refine ⟨freezing.slots.map Prod.snd, freezing.fragments, freezing.error, ?_, ?_⟩
  · simpa [map_map, Function.comp_def] using hmap
  · rw [hnext]
    cases freezing.error <;> rfl

theorem freezeActive_cases : ∃ (window : Option (HeadWindow K)) (fragments : _) (error : _),
    Freezes head.nextFragmentSequence (head.window.toList.map fun w => (WindowPlace.active, w))
        (window.toList.map fun w => (.active, w)) fragments error ∧
      head.freezeActive faults = ((error.elim (.ok ()) .error, { head with
        window := window
        nextFragmentSequence := head.nextFragmentSequence + fragments.length
        selectorIndex := error.elim head.selectorIndex fun _ => none }), fragments) := by
  obtain ⟨hfreezes, hnext⟩ := freezeSlots_freezes (head.window.toList.map fun w => ((), w))
    head.nextFragmentSequence fun _ => faults.active
  have hmap := hfreezes.map fun _ => WindowPlace.active
  have hlength := hfreezes.forall₂.length_eq
  unfold freezeActive
  dsimp only
  generalize freezeSlots head.nextFragmentSequence (fun _ => faults.active)
    (head.window.toList.map fun w => ((), w)) = freezing at *
  -- there is one slot or none, and it stays where it is
  have hone : (freezing.slots.map Prod.snd).head?.toList = freezing.slots.map Prod.snd := by
    have hfew : head.window.toList.length ≤ 1 := Option.length_toList_le
    rw [length_map] at hlength
    match hlist : freezing.slots with
    | [] => rfl
    | [_] => rfl
    | _ :: _ :: _ =>
      rw [hlist, length_cons, length_cons] at hlength
      omega
  refine ⟨(freezing.slots.map Prod.snd).head?, freezing.fragments, freezing.error, ?_, ?_⟩
  · rw [hone]
    simpa [map_map, Function.comp_def] using hmap
  · rw [hnext]
    cases freezing.error <;> rfl

theorem freezeOutOfOrder_cases :
    ∃ (late : List ((UInt64 × UInt64) × HeadWindow K)) (fragments : _) (error : _),
    Freezes head.nextFragmentSequence (head.oooWindows.map fun e => (WindowPlace.late e.1, e.2))
        (late.map fun e => (.late e.1, e.2)) fragments error ∧
      head.freezeOutOfOrder faults = ((error.elim (.ok ()) .error, { head with
        oooWindows := late
        nextFragmentSequence := head.nextFragmentSequence + fragments.length
        selectorIndex := error.elim head.selectorIndex fun _ => none }), fragments) := by
  obtain ⟨hfreezes, hnext⟩ := freezeSlots_freezes head.oooWindows head.nextFragmentSequence
    faults.outOfOrder
  refine ⟨_, _, _, hfreezes.map WindowPlace.late, ?_⟩
  unfold freezeOutOfOrder
  dsimp only
  rw [hnext]
  cases (freezeSlots head.nextFragmentSequence faults.outOfOrder head.oooWindows).error <;> rfl

theorem guardAccepted_eq {head head' : HeadBuffer K} {key : KindGuardKey} {kind : SampleKind}
    (hok : head.guardAccepted key kind = .ok head') :
    head' = { head with kindGuards := head'.kindGuards } := by
  unfold guardAccepted at hok
  split at hok
  · obtain rfl := Except.ok.inj hok
    rfl
  split at hok
  · split at hok
    · cases hok
    · obtain rfl := Except.ok.inj hok
      rfl
  · obtain rfl := Except.ok.inj hok
    rfl

theorem touchLastTimestamp_eq (head : HeadBuffer K) (series : SeriesRef) (timestampMs : UInt64) :
    head.touchLastTimestamp series timestampMs = { head with
      lastTimestamps := (head.touchLastTimestamp series timestampMs).lastTimestamps } := by
  unfold touchLastTimestamp
  split
  · split <;> rfl
  · rfl

theorem activateKindGuards_eq {head head' : HeadBuffer K} (hok : head.activateKindGuards = .ok head') :
    head' = { head with kindGuards := head'.kindGuards } := by
  unfold activateKindGuards at hok
  split at hok
  · obtain rfl := Except.ok.inj hok
    rfl
  · simp only [except_bind_ok, except_pure_ok] at hok
    obtain ⟨guards, -, rfl⟩ := hok
    rfl

def stays : Slot K → Bool
  | (.retained, w) => w.hasSamples
  | _ => true

theorem filter_stays (retained : List (HeadWindow K)) (active : Option (HeadWindow K))
    (late : List ((UInt64 × UInt64) × HeadWindow K)) :
    (slotsOf retained active late).filter stays =
      slotsOf (retained.filter hasSamples) active late := by
  simp [slotsOf, filter_map, Function.comp_def, stays]

theorem tryFreezeForPublication_published :
    head.Published (head.tryFreezeForPublication faults).1.2 (head.tryFreezeForPublication faults).2
      ((head.tryFreezeForPublication faults).1.1 = .ok ()) := by
  unfold tryFreezeForPublication
  split
  · rename_i error _
    exact ⟨rfl, rfl, rfl, rfl, .inl ⟨rfl, rfl⟩, head.slots, some error, fun _ => true,
      .stopped _ _ error, nofun, nofun, by simp⟩
  rename_i guarded hguarded
  have heq := activateKindGuards_eq hguarded
  have hstopped : ∀ error : IoError, head.Published guarded [] ((Except.error error : Except _ Unit) =
      .ok ()) := by
    intro error
    refine ⟨by rw [heq], by rw [heq], by rw [heq], by rw [heq]; rfl, .inr ⟨guarded, hguarded, rfl⟩,
      head.slots, some error, fun _ => true, .stopped _ _ error, nofun, nofun, ?_⟩
    rw [heq]
    simp [slots]
  split
  · exact hstopped _
  split
  · exact hstopped _
  obtain ⟨retained, fragments₁, error₁, hfreezes₁, hresult₁⟩ := guarded.freezeRetained_cases faults
  -- of the slots left by the three loops the empty retained windows go
  have hpublished : ∀ window oooWindows selectorIndex nextFragmentSequence fragments error ok,
      Freezes guarded.nextFragmentSequence guarded.slots (slotsOf retained window oooWindows)
        fragments error → (ok → error = none) →
      nextFragmentSequence = guarded.nextFragmentSequence + fragments.length →
      head.Published { guarded with
        retainedWindows := retained.filter hasSamples
        window, oooWindows, selectorIndex, nextFragmentSequence } fragments ok := by
    intro window late index next fragments error ok hfreezes hok hnext
    have hslots : guarded.slots = head.slots := by rw [heq]; rfl
    have hsequence : guarded.nextFragmentSequence = head.nextFragmentSequence := by rw [heq]
    rw [hslots, hsequence] at hfreezes
    refine ⟨by rw [heq], by rw [heq], by rw [heq], hnext.trans (by rw [hsequence]),
      .inr ⟨guarded, hguarded, rfl⟩, _, error, stays, hfreezes, hok, ?_, (filter_stays ..).symm⟩
    rintro ⟨place, w⟩ hgoes
    cases place with
    | retained => exact hgoes
    | active => cases hgoes
    | late => cases hgoes
  rw [hresult₁]
  cases error₁ with
  | some error =>
    refine hpublished _ _ _ _ _ (some error) _ ?_ nofun rfl
    rw [slots, slotsOf, slotsOf, append_assoc, append_assoc]
    exact hfreezes₁.untouched _
  | none =>
  dsimp only [Option.elim_none]
  obtain ⟨window, fragments₂, error₂, hfreezes₂, hresult₂⟩ := HeadBuffer.freezeActive_cases
    { guarded with
      retainedWindows := retained.filter hasSamples
      nextFragmentSequence := guarded.nextFragmentSequence + fragments₁.length } faults
  have hfreezes := hfreezes₁.append hfreezes₂
  have hnext : guarded.nextFragmentSequence + fragments₁.length + fragments₂.length =
      guarded.nextFragmentSequence + (fragments₁ ++ fragments₂).length := by
    rw [length_append, Nat.add_assoc]
  rw [hresult₂]
  cases error₂ with
  | some error =>
    exact hpublished _ _ _ _ _ (some error) _ (hfreezes.untouched _) nofun hnext
  | none =>
  dsimp only [Option.elim_none]
  obtain ⟨late, fragments₃, error₃, hfreezes₃, hresult₃⟩ := HeadBuffer.freezeOutOfOrder_cases
    { guarded with
      retainedWindows := retained.filter hasSamples
      window := window
      nextFragmentSequence := guarded.nextFragmentSequence + fragments₁.length +
        fragments₂.length } faults
  have hall := hfreezes.append (hnext ▸ hfreezes₃)
  have hnext' : guarded.nextFragmentSequence + fragments₁.length + fragments₂.length +
      fragments₃.length = guarded.nextFragmentSequence +
        (fragments₁ ++ fragments₂ ++ fragments₃).length := by
    rw [length_append, hnext, Nat.add_assoc]
  rw [hresult₃]
  cases error₃ with
  | some error => exact hpublished _ _ _ _ _ _ _ hall nofun hnext'
  | none =>
    dsimp only [Option.elim_none]
    split <;> exact hpublished _ _ _ _ _ _ _ hall (fun _ => rfl) hnext'

end

structure SameWindows (head head' : HeadBuffer K) : Prop where
  config_eq : head'.config = head.config
  window_eq : head'.window = head.window
  late_eq : head'.oooWindows = head.oooWindows
  retained_eq : head'.retainedWindows = head.retainedWindows

theorem SameCounters.trans (h : head.SameCounters head') (h' : head'.SameCounters head'') :
    head.SameCounters head'' :=
  ⟨h'.tracking_eq.trans h.tracking_eq, h'.sequence_eq.trans h.sequence_eq⟩

theorem exists_duration : ∃ durationMs, head.config.windowDurationMs = .ok durationMs := by
  have hvalid := head.valid
  simp only [HeadConfig.validate, except_bind_ok] at hvalid
  obtain ⟨durationMs, hduration, -⟩ := hvalid
  exact ⟨durationMs, hduration⟩

theorem guardAccepted_ok {head : HeadBuffer K} {key : KindGuardKey} {kind : SampleKind}
    (h : (head.guardedKind key).any (· ≠ kind) = false) :
    ∃ head', head.guardAccepted key kind = .ok head' := by
  unfold guardAccepted
  unfold guardedKind at h
  split
  · exact ⟨head, rfl⟩
  rename_i guards hguards
  rw [hguards, Option.bind_some] at h
  split
  · rename_i existing hlookup
    rw [hlookup, Option.any_some, decide_eq_false_iff_not] at h
    rw [if_neg h]
    exact ⟨head, rfl⟩
  · exact ⟨_, rfl⟩

/-- The samples of a batch are written by its caller: no more than 64 bits can count, each with its
contribution when the head tracks coverage. -/
structure BatchOk (tracked : Bool) (recorded : Nat) (batch : List OwnedSample) : Prop where
  countable : recorded + batch.length < 2 ^ 64
  contributions : tracked = true → ∀ x ∈ batch, x.contribution.isSome

section Recordings
variable (tracked : Bool) (durationMs : UInt64) (series : SeriesRef)

/-- What one sample of a batch does; when it fails, the batch stops after it. -/
inductive RecordStep (head : HeadBuffer K) (x : OwnedSample) :
    HeadBuffer K → Option (HeadWindow K) → List Sample → Prop
  | dropped : RecordStep head x head none []
  | placed {result head' completed}
      (hplaced : head.placeSample (windowFor x.timestampMs durationMs) x.faults
        (if tracked then x.contribution else none) ⟨series, x.timestampMs, x.value⟩ =
          (result, head', completed))
      (hrejected : result ≠ .ok true) : RecordStep head x head' completed []
  | accepted {head' head'' completed}
      (hguard : (head.guardedKind (head.guardKey (windowFor x.timestampMs durationMs) series
        x.timestampMs)).any (· ≠ x.value.kind) = false)
      (hplaced : head.placeSample (windowFor x.timestampMs durationMs) x.faults
        (if tracked then x.contribution else none) ⟨series, x.timestampMs, x.value⟩ =
          (.ok true, head', completed))
      (hguarded : head'.guardAccepted (head.guardKey (windowFor x.timestampMs durationMs) series
        x.timestampMs) x.value.kind = .ok head'') :
    RecordStep head x (head''.touchLastTimestamp series x.timestampMs).clearSelectorIndexCache
      completed [⟨series, x.timestampMs, x.value⟩]

/-- The steps of a batch, with the windows that rotated out and the samples accepted so far. -/
inductive Recording (batch : List OwnedSample) (start : HeadBuffer K) :
    HeadBuffer K → List (HeadWindow K) → List Sample → Prop
  | start : Recording batch start start [] []
  | step {head head' flushed log accepted x completed} (hx : x ∈ batch)
      (hrecording : Recording batch start head flushed log)
      (hstep : RecordStep tracked durationMs series head x head' completed accepted) :
    Recording batch start head' (flushed ++ completed.toList) (log ++ accepted)

end Recordings

theorem accepted_same {head₁ head₂ : HeadBuffer K} {key : KindGuardKey} {kind : SampleKind}
    (hguarded : head₁.guardAccepted key kind = .ok head₂) (series : SeriesRef)
    (timestampMs : UInt64) :
    (head₂.touchLastTimestamp series timestampMs).clearSelectorIndexCache.slots = head₁.slots ∧
      (head₂.touchLastTimestamp series timestampMs).config = head₁.config ∧
      head₁.SameCounters (head₂.touchLastTimestamp series timestampMs).clearSelectorIndexCache := by
  rw [head₂.touchLastTimestamp_eq, guardAccepted_eq hguarded]
  exact ⟨rfl, rfl, rfl, rfl⟩

inductive BatchOutcome (tracked : Bool) (durationMs : UInt64) (series : SeriesRef)
    (batch : List OwnedSample) (start : HeadBuffer K) :
    Mutation (HeadBuffer K) (RecordSamplesOwned K) × List Sample → Prop
  | ok {head owned log}
      (hrecording : Recording tracked durationMs series batch start head owned.flushed log) :
    BatchOutcome tracked durationMs series batch start ((.ok owned, head), log)
  | error {head flushed log} (error : IoError)
      (hrecording : Recording tracked durationMs series batch start head flushed log) :
    BatchOutcome tracked durationMs series batch start ((.error error, head.retain flushed), log)

def Settled (head : HeadBuffer K) (flushed : List (HeadWindow K)) (head' : HeadBuffer K)
    (windows : List (HeadWindow K)) : Prop :=
  ∃ retainedWindows, head' = { head with retainedWindows } ∧
    (retainedWindows ++ windows).Perm (head.retainedWindows ++ flushed)

section Recordings
variable {tracked : Bool} {durationMs : UInt64} {series : SeriesRef} {batch : List OwnedSample}
  {start head : HeadBuffer K}

theorem RecordStep.counters {head' : HeadBuffer K} {x : OwnedSample}
    {completed : Option (HeadWindow K)} {accepted : List Sample}
    (h : RecordStep tracked durationMs series head x head' completed accepted) :
    head.SameCounters head' := by
  cases h with
  | dropped => exact ⟨rfl, rfl⟩
  | placed hplaced _ =>
    rcases placeSample_cases hplaced with ⟨_, hsame⟩ | ⟨_, _, _, hplacedIn⟩
    · obtain ⟨-, rfl, -⟩ := hsame
      exact ⟨rfl, rfl⟩
    · exact hplacedIn.counters
  | accepted _ hplaced hguarded =>
    rcases placeSample_cases hplaced with ⟨_, hsame⟩ | ⟨_, _, _, hplacedIn⟩
    · cases hsame
    · exact hplacedIn.counters.trans (accepted_same hguarded ..).2.2

theorem settled_retain (flushed : List (HeadWindow K)) :
    head.Settled flushed (head.retain flushed) [] :=
  ⟨_, rfl, by rw [append_nil]⟩

theorem recordLoop_recording (rest : List OwnedSample) {owned : RecordSamplesOwned K}
    {log : List Sample} (hmem : ∀ x ∈ rest, x ∈ batch) (hbatch : BatchOk tracked owned.recorded rest)
    (h : Recording tracked durationMs series batch start head owned.flushed log) :
    BatchOutcome tracked durationMs series batch start
      ((recordLoop tracked durationMs series rest head owned).1,
        log ++ (recordLoop tracked durationMs series rest head owned).2) := by
  induction rest generalizing head owned log with
  | nil =>
    rw [recordLoop, append_nil]
    exact .ok h
  | cons x rest ih =>
    have hx := hmem x mem_cons_self
    have hmem' : ∀ y ∈ rest, y ∈ batch := fun y hy => hmem y (mem_cons_of_mem _ hy)
    have hrest : ∀ recorded ≤ owned.recorded + 1, BatchOk tracked recorded rest := by
      intro recorded hle
      refine ⟨?_, fun ht y hy => hbatch.contributions ht y (mem_cons_of_mem _ hy)⟩
      have := hbatch.countable
      rw [length_cons] at this
      omega
    unfold recordLoop
    split
    · rw [append_nil]
      exact .error _ h
    dsimp only
    split
    · exact ih hmem' (hrest _ (Nat.le_succ _)) h
    rename_i hguard
    rw [Bool.not_eq_true] at hguard
    split
    · rename_i homitted
      rw [Bool.and_eq_true] at homitted
      have hsome := hbatch.contributions homitted.1 x mem_cons_self
      rw [Option.isNone_iff_eq_none.mp homitted.2] at hsome
      cases hsome
    split
    · rename_i error head' completed hresult
      -- a failed placement rotated nothing, so only earlier windows are retained
      obtain rfl : completed = none := by
        rcases placeSample_cases hresult with ⟨_, hsame⟩ | ⟨place, w, others, hplaced⟩
        · exact (Prod.mk.inj (Prod.mk.inj hsame).2).2
        · rcases hplaced.before with ⟨-, hnone, -⟩ | ⟨_, -, -, -, _, hok⟩
          · exact hnone
          · cases hok
      have hstep := h.step hx (.placed hresult (by simp))
      rw [Option.toList_none, append_nil] at hstep
      exact .error _ hstep
    rename_i accepted head' completed hresult
    cases accepted with
    | false =>
      have hstep := h.step hx (.placed hresult (by simp))
      rw [append_nil] at hstep
      exact @ih _ ⟨_, _⟩ _ hmem' (hrest _ (Nat.le_succ _)) hstep
    | true =>
      have hguards : head'.kindGuards = head.kindGuards := by
        rcases placeSample_cases hresult with ⟨_, hsame⟩ | ⟨_, _, _, hplaced⟩
        · cases hsame
        · exact hplaced.tables.guards_eq
      obtain ⟨head'', hguarded⟩ : ∃ head'', head'.guardAccepted (head.guardKey
          (windowFor x.timestampMs durationMs) series x.timestampMs) x.value.kind = .ok head'' := by
        apply guardAccepted_ok
        rw [guardedKind, hguards]
        exact hguard
      have hcount : owned.recorded + 1 < 2 ^ 64 := by
        have := hbatch.countable
        rw [length_cons] at this
        omega
      rw [hguarded]
      dsimp only
      rw [if_pos hcount]
      have hstep := h.step hx (.accepted hguard hresult hguarded)
      have houtcome := @ih _ ⟨_, owned.recorded + 1⟩ _ hmem' (hrest _ (Nat.le_refl _)) hstep
      rw [append_assoc] at houtcome
      exact houtcome

theorem recordSamplesOwned_outcome (tracked : Bool) (series : SeriesRef) (batch : List OwnedSample)
    (hduration : head.config.windowDurationMs = .ok durationMs) (hbatch : BatchOk tracked 0 batch) :
    BatchOutcome tracked durationMs series batch head
      (head.recordSamplesOwned tracked series batch) := by
  unfold recordSamplesOwned
  split
  · have hretain : head.retain [] = head := by rw [retain, append_nil]
    nth_rewrite 2 [← hretain]
    exact .error _ .start
  · rw [hduration]
    exact @recordLoop_recording _ _ _ _ _ head head batch ⟨[], 0⟩ [] (fun _ hx => hx) hbatch .start

/-- A call that records a batch: its steps, after which every window that rotated is in the head or
returned. -/
def Records (tracked : Bool) (durationMs : UInt64) (series : SeriesRef) (batch : List OwnedSample)
    (head head' : HeadBuffer K) (accepted : List Sample) (windows : List (HeadWindow K)) : Prop :=
  ∃ head₁ flushed, Recording tracked durationMs series batch head head₁ flushed accepted ∧
    head₁.Settled flushed head' windows

theorem Records.counters {head' : HeadBuffer K} {accepted : List Sample}
    {windows : List (HeadWindow K)}
    (h : Records tracked durationMs series batch head head' accepted windows) :
    head.SameCounters head' := by
  obtain ⟨head₁, flushed, hrecording, _, rfl, -⟩ := h
  induction hrecording with
  | start => exact ⟨rfl, rfl⟩
  | step _ _ hstep ih => exact ⟨hstep.counters.tracking_eq.trans ih.tracking_eq,
      hstep.counters.sequence_eq.trans ih.sequence_eq⟩

theorem getLast?_toList {α : Type} {l : List α} (h : ¬ l.length > 1) : l.getLast?.toList = l := by
  match l, h with
  | [], _ => rfl
  | [_], _ => rfl
  | _ :: _ :: _, h => exact absurd (by simp) h

variable (hduration : head.config.windowDurationMs = .ok durationMs) (series : SeriesRef)
include hduration

theorem recordSample_records (timestampMs : UInt64) (value : SampleValue)
    (faults : HeadWindow.SampleFaults) :
    Records false durationMs series [⟨timestampMs, value, none, faults⟩] head
      (head.recordSample series timestampMs value faults).1.2
      (head.recordSample series timestampMs value faults).2
      (returnedWindows Option.toList (head.recordSample series timestampMs value faults).1.1) := by
  have houtcome := recordSamplesOwned_outcome false series [⟨timestampMs, value, none, faults⟩]
    hduration ⟨by simp, by simp⟩
  unfold recordSample recordSampleWithOutcome
  generalize head.recordSamplesOwned false series [⟨timestampMs, value, none, faults⟩] = outcome at *
  cases houtcome with
  | error _ hrecording => exact ⟨_, _, hrecording, settled_retain _⟩
  | @ok head' owned log hrecording =>
    refine ⟨head', owned.flushed, ?_⟩
    dsimp only
    split
    · exact ⟨hrecording, settled_retain _⟩
    rename_i hfew
    split
    · refine ⟨hrecording, head'.retainedWindows, rfl, ?_⟩
      simp [returnedWindows, Except.map, getLast?_toList hfew]
    -- the oldest retained window goes out, and the one that rotated now takes the last place
    rename_i oldest retained hretained
    refine ⟨hrecording, _, rfl, ?_⟩
    simp only [returnedWindows, Except.map, getLast?_toList hfew, hretained, Option.toList_some]
    exact perm_append_singleton ..

theorem recordSampleWithCoverage_records (timestampMs : UInt64) (value : SampleValue)
    (contribution : RecordedSampleContribution) (faults : HeadWindow.SampleFaults) :
    Records true durationMs series [⟨timestampMs, value, some contribution, faults⟩] head
      (head.recordSampleWithCoverage series timestampMs value contribution faults).1.2
      (head.recordSampleWithCoverage series timestampMs value contribution faults).2
      (returnedWindows (·.completedWindow.toList)
        (head.recordSampleWithCoverage series timestampMs value contribution faults).1.1) := by
  have houtcome := recordSamplesOwned_outcome true series
    [⟨timestampMs, value, some contribution, faults⟩] hduration ⟨by simp, by simp⟩
  unfold recordSampleWithCoverage
  generalize head.recordSamplesOwned true series [⟨timestampMs, value, some contribution, faults⟩] =
    outcome at *
  cases houtcome with
  | error _ hrecording => exact ⟨_, _, hrecording, settled_retain _⟩
  | @ok head' owned log hrecording =>
    refine ⟨head', owned.flushed, ?_⟩
    dsimp only
    split
    · rename_i hfew
      refine ⟨hrecording, head'.retainedWindows, rfl, ?_⟩
      rw [returnedWindows, getLast?_toList (Nat.not_lt.mpr hfew)]
    · exact ⟨hrecording, settled_retain _⟩

theorem recordSamples_records (samples : SampleSlice) (faults : Nat → HeadWindow.SampleFaults) :
    Records false durationMs series
      (samples.1.zipIdx.map fun e => ⟨e.1.1, e.1.2, none, faults e.2⟩) head
      (head.recordSamples series samples faults).1.2 (head.recordSamples series samples faults).2
      (returnedWindows id (head.recordSamples series samples faults).1.1) := by
  have houtcome := recordSamplesOwned_outcome false series
    (samples.1.zipIdx.map fun e => ⟨e.1.1, e.1.2, none, faults e.2⟩) hduration
    ⟨by simpa using samples.2, by simp⟩
  unfold recordSamples
  dsimp only
  generalize head.recordSamplesOwned false series
    (samples.1.zipIdx.map fun e => ⟨e.1.1, e.1.2, none, faults e.2⟩) = outcome at *
  cases houtcome with
  | error _ hrecording => exact ⟨_, _, hrecording, settled_retain _⟩
  | ok hrecording => exact ⟨_, _, hrecording, [], rfl, .refl _⟩

end Recordings

end HeadBuffer
end
end Chronoxide
