import Chronoxide.Head.Window

/-! The head buffer (`head/buffer.rs`): the active window, the out-of-order windows and the windows
that rotated out but were not handed over yet. -/

namespace Chronoxide
open Codec

namespace HeadConfig

variable (config : HeadConfig)

def windowDurationMs : Except IoError UInt64 := do
  require (config.windowDuration ≠ 0) (invalidInput "window_duration must be > 0")
  require (config.windowDuration < 2 ^ 64) (invalidInput "window_duration is too large")
  return UInt64.ofNat config.windowDuration

def outOfOrderTimeWindowMs : Except IoError UInt64 := do
  require (config.outOfOrderTimeWindow < 2 ^ 64)
    (invalidInput "out_of_order_time_window is too large")
  return UInt64.ofNat config.outOfOrderTimeWindow

def validateBlockSize : Except IoError Unit := do
  require (config.blockSize ≠ 0) (invalidInput "block_size must be > 0")
  require (config.blockSize ≤ counterMax 32) (invalidInput "block_size is too large")

def validate : Except IoError Unit := do
  let _ ← config.windowDurationMs
  let _ ← config.outOfOrderTimeWindowMs
  config.validateBlockSize

end HeadConfig

def windowFor (timestampMs durationMs : UInt64) : UInt64 × UInt64 :=
  let startMs := saturatingSub timestampMs (timestampMs % durationMs)
  (startMs, saturatingAdd startMs durationMs)

structure KindGuardKey where
  startMs : UInt64
  endMs : UInt64
  lane : FrozenHeadLane
  series : SeriesRef
  deriving DecidableEq, Repr

def rangeLt (a b : UInt64 × UInt64) : Bool := a.1 < b.1 || (a.1 == b.1 && a.2 < b.2)

structure HeadBuffer (K : HeadCodecs) where
  config : HeadConfig
  window : Option (HeadWindow K)
  oooWindows : List ((UInt64 × UInt64) × HeadWindow K)
  retainedWindows : List (HeadWindow K)
  lastTimestamps : List (SeriesRef × UInt64)
  selectorIndex : Option CachedHeadSelectorIndex
  kindGuards : Option (List (KindGuardKey × SampleKind))
  nextFragmentSequence : Nat
  liveCoverageTracking : Bool
  valid : config.validate = .ok ()

structure RecordSamplesOwned (K : HeadCodecs) where
  flushed : List (HeadWindow K)
  recorded : Nat

structure HeadRecordOutcome (K : HeadCodecs) where
  recorded : Bool
  completedWindow : Option (HeadWindow K)

/-- One element of the batch given to `record_samples_owned`, with its failing allocations. -/
structure OwnedSample where
  timestampMs : UInt64
  value : SampleValue
  contribution : Option RecordedSampleContribution
  faults : HeadWindow.SampleFaults

namespace HeadBuffer

variable {K : HeadCodecs}

def new (K : HeadCodecs) (config : HeadConfig) : Except IoError (HeadBuffer K) :=
  match h : config.validate with
  | .error error => .error error
  | .ok () => .ok {
      config
      window := none
      oooWindows := []
      retainedWindows := []
      lastTimestamps := []
      selectorIndex := none
      kindGuards := none
      nextFragmentSequence := 1
      liveCoverageTracking := false
      valid := h }

variable (head : HeadBuffer K)

def isEmpty : Bool :=
  head.window.isNone && head.oooWindows.isEmpty && head.retainedWindows.isEmpty &&
    head.lastTimestamps.isEmpty

def enableLiveCoverageTracking : Mutation (HeadBuffer K) Unit :=
  if head.liveCoverageTracking then (.ok (), head)
  else if !head.isEmpty then
    (.error (invalidInput
      "live coverage tracking must be enabled before recording head samples"), head)
  else (.ok (), { head with liveCoverageTracking := true })

def validateSampleTimestamp (config : HeadConfig) (lastTimestampMs : Option UInt64)
    (timestampMs : UInt64) : Except IoError Unit :=
  match lastTimestampMs with
  | none => .ok ()
  | some lastTimestampMs =>
    if lastTimestampMs ≤ timestampMs then .ok ()
    else do
      let windowMs ← config.outOfOrderTimeWindowMs
      require (saturatingSub lastTimestampMs windowMs ≤ timestampMs)
        (invalidInput "sample is outside out_of_order_time_window")

/-- Late for its series, or for the active window. -/
def routeToOoo (series : SeriesRef) (timestampMs : UInt64) : Bool :=
  (head.lastTimestamps.lookup series).any (timestampMs < ·) ||
    head.window.any (timestampMs < ·.startMs)

def guardKey (range : UInt64 × UInt64) (series : SeriesRef) (timestampMs : UInt64) : KindGuardKey :=
  ⟨range.1, range.2, if head.routeToOoo series timestampMs then .outOfOrder else .inOrder, series⟩

def guardedKind (key : KindGuardKey) : Option SampleKind :=
  head.kindGuards.bind (·.lookup key)

/-- Puts a sample into the window it is routed to. The first sample of a new window is encoded
before the window is published, and a rotated window is returned with the result. -/
def placeSample (range : UInt64 × UInt64) (faults : HeadWindow.SampleFaults)
    (contribution : Option RecordedSampleContribution) (sample : Sample) :
    Except IoError Bool × HeadBuffer K × Option (HeadWindow K) :=
  let next := fun outOfOrder =>
    HeadWindow.newWithLaneAndCoverage K range.1 range.2 outOfOrder head.liveCoverageTracking
  let rotate : Unit → Except IoError Bool × HeadBuffer K × Option (HeadWindow K) := fun _ =>
    match HeadWindow.recordSample head.config (next false) faults contribution sample with
    | (.error error, _) => (.error error, head, none)
    | (.ok accepted, next) =>
      (.ok accepted, { head with window := some next }, head.window.map fun completed =>
        if head.liveCoverageTracking then completed else completed.sealAllSeries)
  if head.routeToOoo sample.series sample.timestampMs then
    match head.oooWindows.lookup range with
    | some target =>
      let (result, target) :=
        HeadWindow.recordSample head.config target faults contribution sample
      (result, { head with oooWindows := KeyedList.set range target head.oooWindows }, none)
    | none =>
      match HeadWindow.recordSample head.config (next true) faults contribution sample with
      | (.error error, _) => (.error error, head, none)
      | (.ok accepted, next) =>
        (.ok accepted,
          { head with oooWindows := KeyedList.insertBy rangeLt range next head.oooWindows }, none)
  else
    match head.window with
    | none => rotate ()
    | some active =>
      if active.endMs ≤ sample.timestampMs then rotate ()
      else
        let (result, active) :=
          HeadWindow.recordSample head.config active faults contribution sample
        (result, { head with window := some active }, none)

def guardAccepted (key : KindGuardKey) (kind : SampleKind) : Except IoError (HeadBuffer K) :=
  match head.kindGuards with
  | none => .ok head
  | some guards =>
    match guards.lookup key with
    | some existing =>
      if existing ≠ kind then
        .error (invalidData "head kind guard changed during exclusive recording")
      else .ok head
    | none => .ok { head with kindGuards := some (guards ++ [(key, kind)]) }

variable (series : SeriesRef)

def touchLastTimestamp (timestampMs : UInt64) : HeadBuffer K :=
  match head.lastTimestamps.lookup series with
  | some previous =>
    if previous < timestampMs then
      { head with lastTimestamps := KeyedList.set series timestampMs head.lastTimestamps }
    else head
  | none => { head with lastTimestamps := head.lastTimestamps ++ [(series, timestampMs)] }

def clearSelectorIndexCache : HeadBuffer K :=
  { head with selectorIndex := none }

def retain (flushed : List (HeadWindow K)) : HeadBuffer K :=
  { head with retainedWindows := head.retainedWindows ++ flushed }

/-- The loop of `record_samples_owned`. The last component lists the accepted samples in the order
of their arrival; the program does not keep it. -/
def recordLoop (tracked : Bool) (durationMs : UInt64) (series : SeriesRef) :
    List OwnedSample → HeadBuffer K → RecordSamplesOwned K →
      Mutation (HeadBuffer K) (RecordSamplesOwned K) × List Sample
  | [], head, owned => ((.ok owned, head), [])
  | x :: rest, head, owned =>
    match validateSampleTimestamp head.config (head.lastTimestamps.lookup series)
        x.timestampMs with
    | .error error => ((.error error, head.retain owned.flushed), [])
    | .ok () =>
      let range := windowFor x.timestampMs durationMs
      let key := head.guardKey range series x.timestampMs
      if (head.guardedKind key).any (· ≠ x.value.kind) then
        recordLoop tracked durationMs series rest head owned
      else if tracked && x.contribution.isNone then
        ((.error (invalidInput "tracked head sample omitted its coverage contribution"), head), [])
      else
        let sample : Sample := ⟨series, x.timestampMs, x.value⟩
        match head.placeSample range x.faults (if tracked then x.contribution else none) sample with
        | (.error error, head, _) => ((.error error, head.retain owned.flushed), [])
        | (.ok accepted, head, completed) =>
          let flushed := owned.flushed ++ completed.toList
          if accepted then
            match head.guardAccepted key x.value.kind with
            | .error error => ((.error error, head.retain flushed), [sample])
            | .ok head =>
              if owned.recorded + 1 < 2 ^ 64 then
                let head := (head.touchLastTimestamp series x.timestampMs).clearSelectorIndexCache
                let (outcome, samples) :=
                  recordLoop tracked durationMs series rest head ⟨flushed, owned.recorded + 1⟩
                (outcome, sample :: samples)
              else
                ((.error (invalidData "recorded sample count overflows"), head), [sample])
          else recordLoop tracked durationMs series rest head ⟨flushed, owned.recorded⟩

def recordSamplesOwned (tracked : Bool) (head : HeadBuffer K) (series : SeriesRef)
    (samples : List OwnedSample) :
    Mutation (HeadBuffer K) (RecordSamplesOwned K) × List Sample :=
  if tracked ≠ head.liveCoverageTracking then
    ((.error (invalidInput (
      if tracked then "tracked sample supplied to a head without live coverage enabled"
      else "untracked sample supplied to a live-coverage head")), head), [])
  else
    match head.config.windowDurationMs with
    | .error error => ((.error error, head), [])
    | .ok durationMs => recordLoop tracked durationMs series samples head ⟨[], 0⟩

variable (timestampMs : UInt64)

/-- A window retained by a failed batch is returned before a window that rotates now. -/
def recordSampleWithOutcome (value : SampleValue) (faults : HeadWindow.SampleFaults) :
    Mutation (HeadBuffer K) (HeadRecordOutcome K) × List Sample :=
  match head.recordSamplesOwned false series [⟨timestampMs, value, none, faults⟩] with
  | ((.error error, head), accepted) => ((.error error, head), accepted)
  | ((.ok owned, head), accepted) =>
    if owned.flushed.length > 1 then
      ((.error (invalidData "one head sample unexpectedly rotated multiple windows"),
        head.retain owned.flushed), accepted)
    else
      match head.retainedWindows with
      | [] => ((.ok ⟨owned.recorded = 1, owned.flushed.getLast?⟩, head), accepted)
      | oldest :: retained =>
        ((.ok ⟨owned.recorded = 1, some oldest⟩,
          { head with retainedWindows := retained ++ owned.flushed.getLast?.toList }), accepted)

def recordSample (value : SampleValue) (faults : HeadWindow.SampleFaults) :
    Mutation (HeadBuffer K) (Option (HeadWindow K)) × List Sample :=
  let ((result, head), accepted) := head.recordSampleWithOutcome series timestampMs value faults
  ((result.map (·.completedWindow), head), accepted)

def recordSampleWithCoverage (value : SampleValue) (contribution : RecordedSampleContribution)
    (faults : HeadWindow.SampleFaults) :
    Mutation (HeadBuffer K) (HeadRecordOutcome K) × List Sample :=
  match head.recordSamplesOwned true series [⟨timestampMs, value, some contribution, faults⟩] with
  | ((.error error, head), accepted) => ((.error error, head), accepted)
  | ((.ok owned, head), accepted) =>
    if owned.flushed.length ≤ 1 then
      ((.ok ⟨owned.recorded = 1, owned.flushed.getLast?⟩, head), accepted)
    else
      ((.error (invalidData "one tracked head sample unexpectedly rotated multiple windows"),
        head.retain owned.flushed), accepted)

def recordSamples (samples : List (UInt64 × SampleValue)) (faults : Nat → HeadWindow.SampleFaults) :
    Mutation (HeadBuffer K) (List (HeadWindow K)) × List Sample :=
  let batch := samples.zipIdx.map fun e => ⟨e.1.1, e.1.2, none, faults e.2⟩
  match head.recordSamplesOwned false series batch with
  | ((.error error, head), accepted) => ((.error error, head), accepted)
  | ((.ok owned, head), accepted) =>
    ((.ok (head.retainedWindows ++ owned.flushed), { head with retainedWindows := [] }), accepted)

def drain : Option (HeadWindow K) × HeadBuffer K :=
  let head := head.clearSelectorIndexCache
  (head.window.map HeadWindow.sealAllSeries, { head with window := none })

def windowLe (a b : HeadWindow K) : Bool :=
  a.startMs < b.startMs || (a.startMs == b.startMs && a.endMs ≤ b.endMs)

def drainWindows : List (HeadWindow K) × HeadBuffer K :=
  let head := head.clearSelectorIndexCache
  let windows := head.retainedWindows ++
    head.oooWindows.map (fun e => e.2.sealAllSeries) ++
    (head.window.map HeadWindow.sealAllSeries).toList
  (windows.mergeSort windowLe,
    { head with retainedWindows := [], oooWindows := [], window := none })

def takeOutOfOrderWindow (startMs endMs : UInt64) : Option (HeadWindow K) × HeadBuffer K :=
  match head.oooWindows.lookup (startMs, endMs) with
  | none => (none, head)
  | some removed =>
    (some removed, { head with
      oooWindows := KeyedList.remove (startMs, endMs) head.oooWindows }.clearSelectorIndexCache)

def windows : List (HeadWindow K) :=
  head.retainedWindows ++ head.window.toList ++ head.oooWindows.map Prod.snd

def activateWindowGuards (w : HeadWindow K) (guards : List (KindGuardKey × SampleKind)) :
    Except IoError (List (KindGuardKey × SampleKind)) :=
  w.series.foldlM (fun guards e =>
    let key : KindGuardKey := ⟨w.startMs, w.endMs, w.lane, e.1⟩
    if (guards.lookup key).any (· ≠ e.2.kind) then
      .error (invalidData ("head range/lane series " ++ toString e.1.get ++
        " contains conflicting sample kinds"))
    else .ok (KeyedList.upsertBy (fun _ _ => false) key e.2.kind guards)) guards

def activateKindGuards : Except IoError (HeadBuffer K) :=
  match head.kindGuards with
  | some _ => .ok head
  | none => do
    let guards ← head.windows.foldlM (fun guards w => activateWindowGuards w guards) []
    return { head with kindGuards := some guards }

def publicationFragmentCount : Nat :=
  (head.windows.filter HeadWindow.hasSamples).length

/-- A frozen window leaves an empty one of the same range and lane in its slot. -/
def tryFreezeWindowSlot (w : HeadWindow K) (publicationSequence : Nat)
    (faults : HeadWindow.FreezeFaults) :
    Mutation (HeadWindow K) (Option (FrozenHeadFragment K)) :=
  if !w.hasSamples then (.ok none, w)
  else
    match w.tryFreeze faults with
    | .ok fragment => (.ok (some { fragment with publicationSequence }), w.emptyTailLike)
    | .error (error, recovered) => (.error error, recovered)

structure Freezing (K : HeadCodecs) (κ : Type) where
  error : Option IoError
  slots : List (κ × HeadWindow K)
  fragments : List (FrozenHeadFragment K)
  nextSequence : Nat

def freezeSlots {κ : Type} (nextSequence : Nat) :
    (Nat → HeadWindow.FreezeFaults) → List (κ × HeadWindow K) → Freezing K κ
  | _, [] => ⟨none, [], [], nextSequence⟩
  | faults, (slot, w) :: rest =>
    match tryFreezeWindowSlot w nextSequence (faults 0) with
    | (.error error, w) => ⟨some error, (slot, w) :: rest, [], nextSequence⟩
    | (.ok none, w) =>
      let later := freezeSlots nextSequence (fun n => faults (n + 1)) rest
      { later with slots := (slot, w) :: later.slots }
    | (.ok (some fragment), w) =>
      let later := freezeSlots (nextSequence + 1) (fun n => faults (n + 1)) rest
      { later with slots := (slot, w) :: later.slots, fragments := fragment :: later.fragments }

/-- The allocations of a publication that fail. -/
structure PublicationFaults where
  fragments : Option IoError
  retained : Nat → HeadWindow.FreezeFaults
  active : HeadWindow.FreezeFaults
  outOfOrder : Nat → HeadWindow.FreezeFaults

-- The three loops of `try_freeze_for_publication`. Each stops the publication when a window fails,
-- with the fragments that were completed before.
variable (faults : PublicationFaults)

def freezeRetained : Mutation (HeadBuffer K) Unit × List (FrozenHeadFragment K) :=
  let step := freezeSlots head.nextFragmentSequence faults.retained
    (head.retainedWindows.map fun w => ((), w))
  let head := { head with
    retainedWindows := (step.slots.map Prod.snd).filter HeadWindow.hasSamples
    nextFragmentSequence := step.nextSequence }
  match step.error with
  | some error => ((.error error, head.clearSelectorIndexCache), step.fragments)
  | none => ((.ok (), head), step.fragments)

def freezeActive : Mutation (HeadBuffer K) Unit × List (FrozenHeadFragment K) :=
  let step := freezeSlots head.nextFragmentSequence (fun _ => faults.active)
    (head.window.toList.map fun w => ((), w))
  let head := { head with
    window := (step.slots.map Prod.snd).head?
    nextFragmentSequence := step.nextSequence }
  match step.error with
  | some error => ((.error error, head.clearSelectorIndexCache), step.fragments)
  | none => ((.ok (), head), step.fragments)

def freezeOutOfOrder : Mutation (HeadBuffer K) Unit × List (FrozenHeadFragment K) :=
  let step := freezeSlots head.nextFragmentSequence faults.outOfOrder head.oooWindows
  let head := { head with
    oooWindows := step.slots
    nextFragmentSequence := step.nextSequence }
  match step.error with
  | some error => ((.error error, head.clearSelectorIndexCache), step.fragments)
  | none => ((.ok (), head), step.fragments)

/-- The fragments belong to the result when the call succeeds and to the error when it fails. -/
def tryFreezeForPublication : Mutation (HeadBuffer K) Unit × List (FrozenHeadFragment K) :=
  match head.activateKindGuards with
  | .error error => ((.error error, head), [])
  | .ok head =>
    if ¬head.nextFragmentSequence + head.publicationFragmentCount < 2 ^ 64 then
      ((.error (invalidData "head fragment publication sequence overflows u64"), head), [])
    else
      match faults.fragments with
      | some error => ((.error error, head), [])
      | none =>
        match head.freezeRetained faults with
        | ((.error error, head), fragments) => ((.error error, head), fragments)
        | ((.ok (), head), retained) =>
          match head.freezeActive faults with
          | ((.error error, head), active) => ((.error error, head), retained ++ active)
          | ((.ok (), head), active) =>
            match head.freezeOutOfOrder faults with
            | ((.error error, head), late) => ((.error error, head), retained ++ active ++ late)
            | ((.ok (), head), late) =>
              let fragments := retained ++ active ++ late
              ((.ok (), if fragments.isEmpty then head else head.clearSelectorIndexCache),
                fragments)

def retainCompletedWindowForPublication (w : HeadWindow K) : Mutation (HeadBuffer K) Unit :=
  if !head.liveCoverageTracking || !w.coverageTracking then
    (.error (invalidInput "completed-window retention requires live coverage tracking"), head)
  else if w.outOfOrder then
    (.error (invalidInput "only a rotated in-order window may be retained for publication"), head)
  else if head.retainedWindows.any fun retained =>
      retained.startMs == w.startMs && retained.endMs == w.endMs && !retained.outOfOrder then
    (.error (invalidData "duplicate retained in-order head window"), head)
  else (.ok (), (head.retain [w]).clearSelectorIndexCache)

def validateKindGuardRetirement (startMs endMs : UInt64) (lane : FrozenHeadLane)
    : Except IoError Unit :=
  require (¬head.windows.any fun w =>
      w.startMs == startMs && w.endMs == endMs && w.outOfOrder == lane.isOutOfOrder &&
        w.hasSamples)
    (invalidInput "cannot retire a head kind guard while its mutable window has samples")

def retireKindGuards (startMs endMs : UInt64) (lane : FrozenHeadLane) :
    Mutation (HeadBuffer K) Nat :=
  match head.validateKindGuardRetirement startMs endMs lane with
  | .error error => (.error error, head)
  | .ok () =>
    match head.kindGuards with
    | none => (.ok 0, head)
    | some guards =>
      let kept := guards.filter fun e =>
        !(e.1.startMs == startMs && e.1.endMs == endMs && e.1.lane == lane)
      (.ok (guards.length - kept.length), { head with kindGuards := some kept })

end HeadBuffer

end Chronoxide
