import Chronoxide.Head.Tracking

/-! Freezing a tracked head for publication: the windows with samples are cut in two, the first ones
into fragments and the rest left as they are. -/

namespace Chronoxide
open Codec Ownership List

section
variable {K : HeadCodecs}

structure FragmentOf (w : HeadWindow K) (fragment : FrozenHeadFragment K) : Prop where
  start_eq : fragment.startMs = w.startMs
  end_eq : fragment.endMs = w.endMs
  lane_eq : fragment.lane = w.lane
  datapoints_eq : fragment.datapoints = w.datapoints
  tracking_eq : fragment.coverageTracking = w.coverageTracking
  tracked_eq : fragment.tracked = w.tracked

namespace HeadWindow

variable {w w' : HeadWindow K}

theorem Kept.hasSamples_eq (h : w.Kept w') : w'.hasSamples = w.hasSamples := by
  have hempty : w'.series.isEmpty = w.series.isEmpty := by
    have hkept : Forall₂ _ w.series w'.series := h.series_kept
    generalize w.series = series at hkept ⊢
    generalize w'.series = series' at hkept ⊢
    cases hkept <;> rfl
  rw [hasSamples, hasSamples, h.datapoints_kept, hempty]

theorem Restored.fragmentOf (h : w.Restored w') (publicationSequence : Nat) :
    FragmentOf w { w'.toFragment with publicationSequence } := by
  refine ⟨h.start_eq, h.end_eq, ?_, h.datapoints_kept, h.tracking_eq, ?_⟩
  · change w'.lane = w.lane
    rw [lane, lane, h.lane_eq]
  rw [← h.tracked_eq]
  have hsamples : (w'.toFragment.samples : Multiset Sample) = w'.samples :=
    Multiset.coe_eq_coe.mpr w'.toFragment_samples
  exact congrArg (fun samples => (⟨samples, w'.coverage, w'.recordedOrderRange,
    w'.recordedOrders⟩ : TrackedContents)) hsamples

end HeadWindow

namespace HeadBuffer

/-- The windows with samples before a freeze: the first ones are now fragments, the others are still
there. Nothing is left when all went well. -/
def Cut (before after : List (HeadWindow K)) (fragments : List (FrozenHeadFragment K))
    (ok : Prop) : Prop :=
  ∃ frozen kept, before.filter HeadWindow.hasSamples = frozen ++ kept ∧
    Forall₂ FragmentOf frozen fragments ∧
    Forall₂ HeadWindow.Restored kept (after.filter HeadWindow.hasSamples) ∧
    (ok → kept = [])

section Freezing
variable {κ : Type} {sequence : Nat} {before after : List (κ × HeadWindow K)}
  {fragments : List (FrozenHeadFragment K)} {error : Option IoError}

theorem Freezes.cut (h : Freezes sequence before after fragments error) :
    Cut (before.map Prod.snd) (after.map Prod.snd) fragments (error = none) := by
  induction h with
  | done => exact ⟨[], [], rfl, .nil, .nil, fun _ => rfl⟩
  | stopped => exact ⟨[], _, rfl, .nil, HeadWindow.forall₂_restored _, nofun⟩
  | empty _ hnone _ ih =>
    obtain ⟨frozen, kept, hbefore, hfrozen, hkept, hall⟩ := ih
    exact ⟨frozen, kept, by simpa [hnone] using hbefore, hfrozen, by simpa [hnone] using hkept, hall⟩
  | @frozen _ _ _ _ _ w _ _ hsome hsealed _ ih =>
    obtain ⟨frozen, kept, hbefore, hfrozen, hkept, hall⟩ := ih
    have htail : w.emptyTailLike.hasSamples = false := rfl
    exact ⟨w :: frozen, kept, by simpa [hsome] using hbefore, .cons (hsealed.fragmentOf _) hfrozen,
      by simpa [htail] using hkept, hall⟩
  | @failed _ w w' _ rest _ hsome hrestored =>
    have hsome' : w'.hasSamples = true := by rw [hrestored.hasSamples_eq, hsome]
    refine ⟨[], w :: (rest.map Prod.snd).filter HeadWindow.hasSamples, by simp [hsome], .nil, ?_,
      nofun⟩
    rw [map_cons, filter_cons, if_pos hsome']
    exact .cons hrestored (HeadWindow.forall₂_restored _)

theorem Freezes.owns (h : Freezes sequence before after fragments error)
    {others : List TrackedContents} {total : Multiset RecordedSample}
    (howns : Owns TrackedContents.Describes (trackedOf (before.map Prod.snd) ++ others) total) :
    Owns TrackedContents.Describes (trackedOf (after.map Prod.snd) ++
      (fragments.map FrozenHeadFragment.tracked ++ others)) total := by
  induction h generalizing total with
  | done => exact howns
  | stopped => exact howns
  | empty _ _ _ ih =>
    obtain ⟨share, others', hshare, hothers, rfl⟩ := owns_cons.mp howns
    exact owns_cons.mpr ⟨share, others', hshare, ih hothers, rfl⟩
  | frozen _ _ hsealed _ ih =>
    -- the empty window that is left owns nothing, the fragment what the window did
    obtain ⟨share, others', hshare, hothers, rfl⟩ := owns_cons.mp howns
    refine owns_cons.mpr ⟨0, _, TrackedContents.describes_empty, ?_, zero_add _⟩
    refine (owns_cons.mpr ⟨share, others', ?_, ih hothers, rfl⟩).perm perm_middle.symm
    rw [(hsealed.fragmentOf _).tracked_eq]
    exact hshare
  | failed _ _ _ _ hrestored =>
    obtain ⟨share, others', hshare, hothers, rfl⟩ := owns_cons.mp howns
    refine owns_cons.mpr ⟨share, others', ?_, hothers, rfl⟩
    rw [hrestored.tracked_eq]
    exact hshare

end Freezing

theorem owns_filter {slots : List (Slot K)} {stays : Slot K → Bool}
    (hstays : ∀ e : Slot K, stays e = false → e.2.hasSamples = false)
    {others : List TrackedContents} {total : Multiset RecordedSample}
    (h : Owns TrackedContents.Describes (trackedOf (slots.map Prod.snd) ++ others) total) :
    Owns TrackedContents.Describes (trackedOf ((slots.filter stays).map Prod.snd) ++ others)
      total := by
  obtain ⟨first, second, hfirst, hsecond, rfl⟩ := owns_append.mp h
  refine owns_append.mpr ⟨first, second, ?_, hsecond, rfl⟩
  rw [trackedOf, map_map] at hfirst ⊢
  refine owns_map.mpr ((owns_map.mp hfirst).filter fun e _ hgoes share hshare => ?_)
  apply hshare.eq_zero
  exact HeadWindow.tracked_samples_of_not_hasSamples (by simp [hstays e (by simpa using hgoes)])

structure Frozen (head head' : HeadBuffer K) (fragments : List (FrozenHeadFragment K)) : Prop where
  last_eq : head'.lastTimestamps = head.lastTimestamps
  tracking_eq : head'.liveCoverageTracking = head.liveCoverageTracking
  sequences : fragments.map (·.publicationSequence) =
    range' head.nextFragmentSequence fragments.length
  next : head'.nextFragmentSequence = head.nextFragmentSequence + fragments.length
  hands : head.Hands head' (fragments.map FrozenHeadFragment.tracked) 0

/-- A publication cuts the windows in two, whether it succeeds or fails at any of them. -/
theorem tryFreezeForPublication_frozen (head : HeadBuffer K) (faults : PublicationFaults) :
    head.Frozen (head.tryFreezeForPublication faults).1.2 (head.tryFreezeForPublication faults).2 ∧
      Cut head.windows (head.tryFreezeForPublication faults).1.2.windows
        (head.tryFreezeForPublication faults).2
        ((head.tryFreezeForPublication faults).1.1 = .ok ()) := by
  have hpublished := head.tryFreezeForPublication_published faults
  generalize (head.tryFreezeForPublication faults).1.2 = head' at *
  generalize (head.tryFreezeForPublication faults).2 = fragments at *
  obtain ⟨slots, error, stays, hfreezes, hok, hstays, hslots⟩ := hpublished.freezes
  refine ⟨⟨hpublished.last_eq, hpublished.tracking_eq, hfreezes.sequences, hpublished.sequence_eq,
    fun others total howns => ?_⟩, ?_⟩
  · rw [zero_add, ← map_snd_slots head', hslots]
    rw [← map_snd_slots head] at howns
    exact owns_filter hstays (hfreezes.owns howns)
  obtain ⟨frozen, kept, hbefore, hfrozen, hkept, hall⟩ := hfreezes.cut
  rw [map_snd_slots] at hbefore
  refine ⟨frozen, kept, hbefore, hfrozen, ?_, fun h => hall (hok h)⟩
  rw [filter_map] at hkept
  rw [← map_snd_slots head', hslots, filter_map, filter_filter]
  have hsame : ∀ e : Slot K, ((HeadWindow.hasSamples ∘ Prod.snd) e && stays e) =
      (HeadWindow.hasSamples ∘ Prod.snd) e := by
    intro e
    cases hgoes : stays e with
    | true => exact Bool.and_true _
    | false => simp [hstays e hgoes]
  simpa only [hsame] using hkept

end HeadBuffer

end

end Chronoxide
