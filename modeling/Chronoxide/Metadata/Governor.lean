import Chronoxide.Codec.Parser
import Mathlib.Algebra.BigOperators.Group.List.Basic
import Mathlib.Algebra.GroupWithZero.Nat

/-! The governor of metadata memory (`metadata_governor.rs`). Its totals and usage counters are
what the live charges add up to, and its peaks are the largest totals so far. -/

namespace Chronoxide.Metadata
open Codec

inductive ChargeClass
  | inFlight
  | retained
  deriving DecidableEq, Repr

inductive CacheClass
  | symbolRoot | symbolPage | indexRoot | indexDirectory | indexPage | metricRange | seriesRoot
  | seriesHotPage | seriesColdPage | overflowRoot | overflowBlob | postings | fullValidation
  deriving DecidableEq, Repr

inductive UsageClass
  | unclassified
  | scratch
  | corruptionLedger
  | cache (cacheClass : CacheClass)
  deriving DecidableEq, Repr

def UsageClass.isCache : UsageClass → Bool
  | .cache _ => true
  | _ => false

structure GovernorConfig where
  retainedMaxBytes : UInt64
  inFlightMaxBytes : UInt64

structure BudgetError where
  chargeClass : ChargeClass
  requestedBytes : Nat
  currentBytes : Nat
  limitBytes : Nat

structure Charge where
  chargeClass : ChargeClass
  usage : UsageClass
  bytes : Nat
  deriving DecidableEq, Repr

/-- The counters of no usage are the totals. -/
structure GovernorState where
  bytes : Option UsageClass → ChargeClass → Nat
  peakBytes : Option UsageClass → ChargeClass → Nat
  refusals : ChargeClass → Nat

def GovernorConfig.limit (config : GovernorConfig) : ChargeClass → Nat
  | .inFlight => config.inFlightMaxBytes.toNat
  | .retained => config.retainedMaxBytes.toNat

def Charge.counts (c : Charge) (usage : Option UsageClass) (k : ChargeClass) : Bool :=
  c.chargeClass = k && (usage = none || usage = some c.usage)

def Charge.weight (c : Charge) (usage : Option UsageClass) (k : ChargeClass) : Nat :=
  if c.counts usage k then c.bytes else 0

namespace GovernorState

def new : GovernorState := ⟨fun _ _ => 0, fun _ _ => 0, fun _ => 0⟩

variable (config : GovernorConfig) (s : GovernorState) (c : Charge)

def observeRefusal (k : ChargeClass) : GovernorState :=
  { s with refusals := fun other =>
      if other = k then min (s.refusals k + 1) (2 ^ 64 - 1) else s.refusals other }

/-- A sum that overflows is over every limit too. -/
def exceeds (k : ChargeClass) (bytes : Nat) : Bool :=
  config.limit k < s.bytes none k + bytes

def credit : GovernorState :=
  let bytes usage k := s.bytes usage k + c.weight usage k
  { s with
    bytes
    peakBytes := fun usage k =>
      if c.counts usage k then max (s.peakBytes usage k) (bytes usage k) else s.peakBytes usage k }

def debit : GovernorState :=
  { s with bytes := fun usage k => s.bytes usage k - c.weight usage k }

def usageBytes : Nat :=
  s.bytes (some c.usage) c.chargeClass

def reserveLocked : Except String (Except BudgetError Unit × GovernorState) :=
  if s.exceeds config c.chargeClass c.bytes then
    .ok (.error ⟨c.chargeClass, c.bytes, s.bytes none c.chargeClass, config.limit c.chargeClass⟩,
      s.observeRefusal c.chargeClass)
  else do
    require (s.usageBytes c + c.bytes < 2 ^ 64) "metadata usage charge overflow"
    return (.ok (), s.credit c)

def releaseLocked : Except String GovernorState := do
  require (c.bytes ≤ s.bytes none c.chargeClass) "metadata charge release invariant violated"
  require (c.bytes ≤ s.usageBytes c) "metadata usage charge release invariant violated"
  return s.debit c

def reconcile (actualBytes : Nat) :
    Except String (Except BudgetError Unit × GovernorState × Charge) :=
  if actualBytes = c.bytes then .ok (.ok (), s, c)
  else if c.bytes < actualBytes then do
    let (result, s) ← s.reserveLocked config { c with bytes := actualBytes - c.bytes }
    return (result, s, if result.isOk then { c with bytes := actualBytes } else c)
  else do
    let s ← s.releaseLocked { c with bytes := c.bytes - actualBytes }
    return (.ok (), s, { c with bytes := actualBytes })

def tryPromoteToRetained : Except String (Bool × GovernorState × Charge) :=
  let promoted := { c with chargeClass := .retained }
  if c.chargeClass = .retained then .ok (true, s, c)
  else if s.exceeds config .retained c.bytes then .ok (false, s.observeRefusal .retained, c)
  else do
    require (s.usageBytes promoted + c.bytes < 2 ^ 64) "metadata usage retained charge overflow"
    require (c.bytes ≤ s.bytes none c.chargeClass) "metadata in-flight charge invariant violated"
    require (c.bytes ≤ s.usageBytes c) "metadata usage in-flight charge invariant violated"
    return (true, (s.debit c).credit promoted, promoted)

def transferRetained (handed transfer : Charge) : Except String GovernorState := do
  require (c.bytes + handed.bytes < 2 ^ 64) "metadata scratch handoff release overflow"
  require (c.bytes + handed.bytes ≤ s.bytes none .inFlight)
    "metadata scratch handoff in-flight invariant violated"
  require (handed.bytes ≤ s.usageBytes handed) "metadata scratch usage invariant violated"
  require (c.bytes ≤ s.usageBytes c) "metadata final usage invariant violated"
  return ((s.debit handed).debit c).credit transfer

/-- The admission that leaves the final allocation in flight. -/
def admitInFlight (handed live : Charge) :
    Except String (Except BudgetError Unit × GovernorState) := do
  require (handed.bytes ≤ s.bytes none .inFlight)
    "metadata scratch handoff in-flight invariant violated"
  if (s.debit handed).exceeds config .inFlight live.bytes then
    return (.error ⟨.inFlight, live.bytes, (s.debit handed).bytes none .inFlight,
      config.limit .inFlight⟩, s.observeRefusal .inFlight)
  else
    require (s.usageBytes live + live.bytes < 2 ^ 64) "metadata final usage charge overflow"
    require (handed.bytes ≤ s.usageBytes handed) "metadata scratch usage invariant violated"
    return (.ok (), (s.debit handed).credit live)

/-- The new charges of a success belong to the live registry and to a resident entry. All charges
are of one governor, which the source asserts too. -/
def admitCacheAllocation (scratch : Option Charge) (liveBytes : Nat) (residentBytes : Option Nat) :
    Except String (Except BudgetError (Charge × Option Charge) × GovernorState × Charge ×
      Option Charge) := do
  require (c.chargeClass = .inFlight)
    "metadata cache admission requires an in-flight final allocation"
  require c.usage.isCache "metadata cache admission requires a cache allocation charge"
  require (∀ handed ∈ scratch, handed.chargeClass = .inFlight)
    "metadata scratch handoff requires in-flight scratch"
  require (∀ handed ∈ scratch, handed.usage = .scratch)
    "metadata scratch handoff requires a scratch usage charge"
  let handed := scratch.getD ⟨.inFlight, .scratch, 0⟩
  let emptied := scratch.map ({ · with bytes := 0 })
  let transfer : Charge := ⟨.retained, c.usage, c.bytes + liveBytes + residentBytes.getD 0⟩
  if residentBytes.isSome ∧ s.usageBytes transfer + transfer.bytes < 2 ^ 64 ∧
      ¬ s.exceeds config .retained transfer.bytes then
    let s ← s.transferRetained c handed transfer
    return (.ok (⟨.retained, c.usage, liveBytes⟩, residentBytes.map (⟨.retained, c.usage, ·⟩)), s,
      { c with chargeClass := .retained }, emptied)
  else
    let s := if residentBytes.isSome then s.observeRefusal .retained else s
    let live : Charge := ⟨.inFlight, c.usage, liveBytes⟩
    match ← s.admitInFlight config handed live with
    | (.ok (), s) => return (.ok (live, none), s, c, emptied)
    | (.error e, s) => return (.error e, s, c, scratch)

end GovernorState

inductive GovernorCall
  | reserve (charge : Charge)
  | reconcile (charge : Charge) (actualBytes : Nat)
  | tryPromoteToRetained (charge : Charge)
  | admitCacheAllocation (final : Charge) (scratch : Option Charge) (liveBytes : Nat)
      (residentBytes : Option Nat)
  | drop (charge : Charge)

namespace GovernorCall

def inputs : GovernorCall → List Charge
  | reserve _ => []
  | reconcile c _ | tryPromoteToRetained c | drop c => [c]
  | admitCacheAllocation final scratch _ _ => final :: scratch.toList

def Asserted : GovernorCall → Prop
  | admitCacheAllocation final scratch _ _ => final.chargeClass = .inFlight ∧ final.usage.isCache ∧
      ∀ handed ∈ scratch, handed.chargeClass = .inFlight ∧ handed.usage = .scratch
  | _ => True

/-- Whether the call was accepted, the state after it and what its charges have become. -/
def run (config : GovernorConfig) (s : GovernorState) :
    GovernorCall → Except String (Bool × GovernorState × List Charge)
  | reserve c => do
    let (result, s) ← s.reserveLocked config c
    return (result.isOk, s, if result.isOk then [c] else [])
  | reconcile c actualBytes => do
    let (result, s, c) ← s.reconcile config c actualBytes
    return (result.isOk, s, [c])
  | tryPromoteToRetained c => do
    let (promoted, s, c) ← s.tryPromoteToRetained config c
    return (promoted, s, [c])
  | admitCacheAllocation final scratch liveBytes residentBytes => do
    let (result, s, final, scratch) ←
      s.admitCacheAllocation config final scratch liveBytes residentBytes
    let created := match result with
      | .ok (live, resident) => live :: resident.toList
      | .error _ => []
    return (result.isOk, s, created ++ final :: scratch.toList)
  | drop c => do return (true, ← s.releaseLocked c, [])

end GovernorCall

/-- The states a governor has gone through, the last of them, and its live charges then. -/
inductive GovernorRun (config : GovernorConfig) :
    List GovernorState → GovernorState → List Charge → Prop
  | new : GovernorRun config [.new] .new []
  | call {trace s live rest accepted s' outputs} (call : GovernorCall)
      (run : GovernorRun config trace s live) (taken : live.Perm (call.inputs ++ rest))
      (returned : call.run config s = .ok (accepted, s', outputs)) :
      GovernorRun config (trace ++ [s']) s' (outputs ++ rest)

/-- What the charges of a class, or of a class and usage, add up to. -/
def chargedBytes (live : List Charge) (usage : Option UsageClass) (k : ChargeClass) : Nat :=
  (live.map (·.weight usage k)).sum

structure Conserves (config : GovernorConfig) (s : GovernorState) (live : List Charge) : Prop where
  bytes : ∀ usage k, s.bytes usage k = chargedBytes live usage k
  limits : ∀ k, s.bytes none k ≤ config.limit k
  peaks : ∀ usage k, s.bytes usage k ≤ s.peakBytes usage k

section
variable {config : GovernorConfig} {s s' : GovernorState} {c d : Charge} {i o live rest : List Charge}
  {usage : Option UsageClass} {k : ChargeClass}
open GovernorState

@[simp] theorem chargedBytes_cons :
    chargedBytes (c :: live) usage k = c.weight usage k + chargedBytes live usage k := by
  simp [chargedBytes]

theorem Charge.weight_own (h : usage = none ∨ usage = some c.usage) :
    c.weight usage c.chargeClass = c.bytes := by
  rcases h with rfl | rfl <;> simp [weight, counts]

theorem Charge.weight_add {a b : Nat} (hb : c.bytes = a + b) (usage : Option UsageClass)
    (k : ChargeClass) : c.weight usage k =
      { c with bytes := a }.weight usage k + { c with bytes := b }.weight usage k := by
  by_cases h : c.chargeClass = k ∧ (usage = none ∨ usage = some c.usage) <;>
    simp [weight, counts, h, hb]

theorem chargedBytes_usage_le (use : UsageClass) :
    chargedBytes live (some use) k ≤ chargedBytes live none k := by
  induction live with
  | nil => exact Nat.le_refl _
  | cons c live ih =>
    have hc : c.weight (some use) k ≤ c.weight none k := by
      unfold Charge.weight Charge.counts
      split <;> simp_all
    exact Nat.add_le_add hc ih

theorem GovernorConfig.limit_lt : config.limit k < 2 ^ 64 := by
  cases k <;> exact UInt64.toNat_lt _

theorem GovernorState.fits_of_not_exceeds {bytes : Nat} (h : ¬ s.exceeds config k bytes) :
    s.bytes none k + bytes ≤ config.limit k := by
  simpa [exceeds] using h

theorem GovernorState.debit_usageBytes (h : c.usage ≠ d.usage) :
    (s.debit c).usageBytes d = s.usageBytes d := by
  simp [usageBytes, debit, Charge.weight, Charge.counts, h.symm]

namespace Conserves

theorem congr (h : Conserves config s live)
    (hsame : ∀ usage k, chargedBytes live usage k = chargedBytes rest usage k) :
    Conserves config s rest :=
  ⟨fun usage k => (h.bytes usage k).trans (hsame usage k), h.limits, h.peaks⟩

theorem perm (h : Conserves config s live) (hp : live.Perm rest) : Conserves config s rest :=
  h.congr fun _ _ => (hp.map _).sum_nat

theorem bytes_le (h : Conserves config s (c :: rest)) :
    c.bytes ≤ s.bytes none c.chargeClass ∧ c.bytes ≤ s.usageBytes c := by
  constructor
  all_goals
    simp only [usageBytes, h.bytes, chargedBytes_cons]
    rw [Charge.weight_own (by simp)]
    exact Nat.le_add_right _ _

theorem usage_lt (h : Conserves config s live)
    (hfits : s.bytes none c.chargeClass + c.bytes ≤ config.limit c.chargeClass) :
    s.usageBytes c + c.bytes < 2 ^ 64 := by
  have hlimit := config.limit_lt (k := c.chargeClass)
  have husage : s.usageBytes c ≤ s.bytes none c.chargeClass := by
    rw [usageBytes, h.bytes, h.bytes]
    exact chargedBytes_usage_le c.usage
  omega

theorem debit (h : Conserves config s (c :: rest)) : Conserves config (s.debit c) rest where
  bytes usage k := by simp [GovernorState.debit, h.bytes]
  limits k := Nat.le_trans (Nat.sub_le _ _) (h.limits k)
  peaks usage k := Nat.le_trans (Nat.sub_le _ _) (h.peaks usage k)

theorem debit_peak (h : Conserves config s (c :: rest)) (usage : Option UsageClass)
    (k : ChargeClass) :
    (s.debit c).peakBytes usage k = max (s.peakBytes usage k) ((s.debit c).bytes usage k) :=
  (Nat.max_eq_left (h.debit.peaks usage k)).symm

theorem credit_peak (h : Conserves config s live) (usage : Option UsageClass) (k : ChargeClass) :
    (s.credit c).peakBytes usage k = max (s.peakBytes usage k) ((s.credit c).bytes usage k) := by
  unfold credit Charge.weight
  by_cases hc : c.counts usage k
  · simp only [if_pos hc]
  · simp only [if_neg hc]
    exact (Nat.max_eq_left (h.peaks usage k)).symm

theorem credit (h : Conserves config s live)
    (hfits : s.bytes none c.chargeClass + c.bytes ≤ config.limit c.chargeClass) :
    Conserves config (s.credit c) (c :: live) where
  bytes usage k := by simp [GovernorState.credit, h.bytes, Nat.add_comm]
  limits k := by
    have hk := h.limits k
    by_cases hc : c.chargeClass = k
    · subst hc
      simpa [GovernorState.credit, Charge.weight_own] using hfits
    · simpa [GovernorState.credit, Charge.weight, Charge.counts, hc] using hk
  peaks usage k := (h.credit_peak usage k).symm ▸ Nat.le_max_right _ _

end Conserves

theorem reserveLocked_cases (h : Conserves config s live) :
    (∃ e, s.reserveLocked config c = .ok (.error e, s.observeRefusal c.chargeClass)) ∨
      s.reserveLocked config c = .ok (.ok (), s.credit c) ∧
        Conserves config (s.credit c) (c :: live) := by
  unfold reserveLocked
  split
  case isTrue => exact .inl ⟨_, rfl⟩
  case isFalse hfits =>
    have hle := fits_of_not_exceeds hfits
    exact .inr ⟨by rw [require_pos (h.usage_lt hle)]; rfl, h.credit hle⟩

theorem releaseLocked_eq (h : Conserves config s (c :: rest)) :
    s.releaseLocked c = .ok (s.debit c) := by
  unfold releaseLocked
  rw [require_pos h.bytes_le.1, require_pos h.bytes_le.2]
  rfl

theorem transferRetained_eq (h : Conserves config s (d :: c :: rest))
    (hclass : c.chargeClass = .inFlight) (hflight : d.chargeClass = .inFlight) (transfer : Charge) :
    s.transferRetained c d transfer = .ok (((s.debit d).debit c).credit transfer) := by
  have hfinal : Conserves config s (c :: d :: rest) := h.perm (.swap _ _ _)
  have hc := c.weight_own (.inl rfl)
  have hd := d.weight_own (.inl rfl)
  rw [hclass] at hc
  rw [hflight] at hd
  have htotal : c.bytes + d.bytes ≤ s.bytes none .inFlight := by
    rw [h.bytes, chargedBytes_cons, chargedBytes_cons, hc, hd]
    omega
  have hlimit := Nat.lt_of_le_of_lt (h.limits .inFlight) config.limit_lt
  unfold transferRetained
  rw [require_pos (Nat.lt_of_le_of_lt htotal hlimit), require_pos htotal,
    require_pos h.bytes_le.2, require_pos hfinal.bytes_le.2]
  rfl

theorem admitInFlight_cases (h : Conserves config s (d :: rest)) (hflight : d.chargeClass = .inFlight)
    (hlive : c.chargeClass = .inFlight) (hne : d.usage ≠ c.usage) :
    (∃ e, s.admitInFlight config d c = .ok (.error e, s.observeRefusal .inFlight)) ∨
      s.admitInFlight config d c = .ok (.ok (), (s.debit d).credit c) ∧
        Conserves config ((s.debit d).credit c) (c :: rest) := by
  unfold admitInFlight
  rw [require_pos (hflight ▸ h.bytes_le.1)]
  split
  case isTrue => exact .inl ⟨_, rfl⟩
  case isFalse hfits =>
    have hle := hlive ▸ fits_of_not_exceeds hfits
    have hlt := h.debit.usage_lt hle
    rw [debit_usageBytes hne] at hlt
    exact .inr ⟨by rw [require_pos hlt, require_pos h.bytes_le.2]; rfl, h.debit.credit hle⟩

/-- What a call comes to: it returns, its charges are conserved, the peaks take in the new totals,
and a refusal changes nothing but the count of refusals. -/
def Settles (config : GovernorConfig) (s : GovernorState) (inputs rest : List Charge)
    (result : Except String (Bool × GovernorState × List Charge)) : Prop :=
  ∃ accepted s' outputs, result = .ok (accepted, s', outputs) ∧
    Conserves config s' (outputs ++ rest) ∧
    (∀ usage k, s'.peakBytes usage k = max (s.peakBytes usage k) (s'.bytes usage k)) ∧
    (accepted = false → s'.bytes = s.bytes ∧ s'.peakBytes = s.peakBytes ∧ outputs = inputs)

theorem Settles.accepted (h : Conserves config s' (o ++ rest))
    (hpeak : ∀ usage k, s'.peakBytes usage k = max (s.peakBytes usage k) (s'.bytes usage k)) :
    Settles config s i rest (.ok (true, s', o)) :=
  ⟨true, s', o, rfl, h, hpeak, nofun⟩

theorem Settles.same {accepted : Bool} (h : Conserves config s (i ++ rest))
    (hbytes : s'.bytes = s.bytes) (hpeak : s'.peakBytes = s.peakBytes) :
    Settles config s i rest (.ok (accepted, s', i)) := by
  refine ⟨accepted, s', i, rfl, ⟨?_, ?_, ?_⟩, ?_, fun _ => ⟨hbytes, hpeak, rfl⟩⟩ <;> rw [hbytes]
  · exact h.bytes
  · exact h.limits
  · exact hpeak ▸ h.peaks
  · intro usage k
    rw [hpeak, Nat.max_eq_left (h.peaks usage k)]

theorem reconcile_settles (actual : Nat) (h : Conserves config s (c :: rest)) :
    Settles config s [c] rest ((GovernorCall.reconcile c actual).run config s) := by
  simp only [GovernorCall.run, reconcile]
  split
  · exact .same h rfl rfl
  split
  · rcases reserveLocked_cases h (c := { c with bytes := actual - c.bytes }) with
      ⟨e, he⟩ | ⟨hc, hnext⟩
    · rw [he]
      exact .same h rfl rfl
    rw [hc]
    refine .accepted (o := [{ c with bytes := actual }]) (hnext.congr fun usage k => ?_)
      h.credit_peak
    have hgrown : { c with bytes := actual }.weight usage k =
        { c with bytes := actual - c.bytes }.weight usage k + c.weight usage k :=
      Charge.weight_add (by dsimp only; omega) usage k
    simp only [List.cons_append, List.nil_append, chargedBytes_cons]
    omega
  have hsplit : Conserves config s
      ({ c with bytes := c.bytes - actual } :: { c with bytes := actual } :: rest) := by
    refine h.congr fun usage k => ?_
    rw [chargedBytes_cons, chargedBytes_cons, chargedBytes_cons,
      c.weight_add (show c.bytes = c.bytes - actual + actual by omega), Nat.add_assoc]
  rw [releaseLocked_eq hsplit]
  exact .accepted (o := [{ c with bytes := actual }]) hsplit.debit hsplit.debit_peak

theorem tryPromoteToRetained_settles (h : Conserves config s (c :: rest)) :
    Settles config s [c] rest ((GovernorCall.tryPromoteToRetained c).run config s) := by
  simp only [GovernorCall.run, tryPromoteToRetained]
  split
  · exact .same h rfl rfl
  split
  · exact .same h rfl rfl
  next hfits =>
  have hle := fits_of_not_exceeds hfits
  rw [require_pos (h.usage_lt (c := { c with chargeClass := .retained }) hle),
    require_pos h.bytes_le.1, require_pos h.bytes_le.2]
  exact .accepted (o := [{ c with chargeClass := .retained }])
    (h.debit.credit (Nat.le_trans (Nat.add_le_add_right (Nat.sub_le _ _) _) hle))
    h.debit.credit_peak

theorem admitCacheAllocation_settles {scratch : Option Charge} {liveBytes : Nat}
    {residentBytes : Option Nat}
    (ha : (GovernorCall.admitCacheAllocation c scratch liveBytes residentBytes).Asserted)
    (h : Conserves config s (c :: scratch.toList ++ rest)) :
    Settles config s (c :: scratch.toList) rest
      ((GovernorCall.admitCacheAllocation c scratch liveBytes residentBytes).run config s) := by
  obtain ⟨hclass, hcache, hscratch⟩ := ha
  -- without scratch the admission hands over a charge of no bytes
  obtain ⟨hhanded, hflight, husage⟩ :
      Conserves config s (scratch.getD ⟨.inFlight, .scratch, 0⟩ :: c :: rest) ∧
      (scratch.getD ⟨.inFlight, .scratch, 0⟩).chargeClass = .inFlight ∧
      (scratch.getD ⟨.inFlight, .scratch, 0⟩).usage = .scratch := by
    cases scratch with
    | none => exact ⟨h.congr fun usage k => by simp [Charge.weight], rfl, rfl⟩
    | some handed => exact ⟨h.perm (.swap _ _ _), hscratch handed rfl⟩
  have hemptied : ∀ usage k, chargedBytes
      ((scratch.map ({ · with bytes := 0 })).toList ++ rest) usage k =
        chargedBytes rest usage k := by
    intro usage k
    cases scratch <;> simp [Charge.weight]
  simp only [GovernorCall.run, admitCacheAllocation]
  rw [require_pos hclass, require_pos hcache, require_pos fun handed hm => (hscratch handed hm).1,
    require_pos fun handed hm => (hscratch handed hm).2]
  generalize scratch.getD ⟨.inFlight, .scratch, 0⟩ = handed at *
  split
  case isTrue hretained =>
    obtain ⟨hsome, -, hfits⟩ := hretained
    obtain ⟨resident, rfl⟩ := Option.isSome_iff_exists.mp hsome
    have hle := fits_of_not_exceeds hfits
    rw [transferRetained_eq hhanded hclass hflight]
    have hnext := hhanded.debit.debit.credit
      (c := ⟨.retained, c.usage, c.bytes + liveBytes + resident⟩) (Nat.le_trans
        (Nat.add_le_add_right (Nat.le_trans (Nat.sub_le _ _) (Nat.sub_le _ _)) _) hle)
    refine .accepted (o := [_, _] ++ _ :: _) (hnext.congr fun usage k => ?_)
      hhanded.debit.debit.credit_peak
    have hsum := Charge.weight_add
      (c := ⟨.retained, c.usage, c.bytes + liveBytes + resident⟩) rfl usage k
    have hsum' := Charge.weight_add (c := ⟨.retained, c.usage, c.bytes + liveBytes⟩) rfl usage k
    have hempty := hemptied usage k
    simp [chargedBytes] at hsum hsum' hempty ⊢
    omega
  case isFalse =>
    generalize hs : (if residentBytes.isSome then s.observeRefusal .retained else s) = s₀
    obtain ⟨hbytes, hpeak⟩ : s₀.bytes = s.bytes ∧ s₀.peakBytes = s.peakBytes := by
      rw [← hs]
      split <;> exact ⟨rfl, rfl⟩
    have hzero : Conserves config s₀ (handed :: c :: rest) :=
      ⟨hbytes ▸ hhanded.bytes, hbytes ▸ hhanded.limits, hbytes ▸ hpeak ▸ hhanded.peaks⟩
    have hother : handed.usage ≠ c.usage := by
      rintro hu
      rw [← hu, husage] at hcache
      exact absurd hcache (by decide)
    rcases admitInFlight_cases hzero hflight (c := ⟨.inFlight, c.usage, liveBytes⟩) rfl hother with
      ⟨e, he⟩ | ⟨hc, hnext⟩
    · rw [he]
      exact .same h hbytes hpeak
    rw [hc]
    refine .accepted (o := [_] ++ _ :: _) (hnext.congr fun usage k => ?_)
      (hpeak ▸ hzero.debit.credit_peak)
    have hempty := hemptied usage k
    simp [chargedBytes] at hempty ⊢
    omega

theorem GovernorCall.run_settles (call : GovernorCall) (ha : call.Asserted)
    (h : Conserves config s (call.inputs ++ rest)) :
    Settles config s call.inputs rest (call.run config s) := by
  cases call with
  | reserve c =>
    simp only [run]
    rcases reserveLocked_cases h (c := c) with ⟨e, he⟩ | ⟨hc, hnext⟩
    · rw [he]
      exact .same h rfl rfl
    · rw [hc]
      exact .accepted (o := [c]) hnext h.credit_peak
  | reconcile c actual => exact reconcile_settles actual h
  | tryPromoteToRetained c => exact tryPromoteToRetained_settles h
  | admitCacheAllocation c scratch live resident => exact admitCacheAllocation_settles ha h
  | drop c =>
    simp only [run, releaseLocked_eq h]
    exact .accepted (o := []) h.debit h.debit_peak

theorem GovernorCall.asserted_of_run {call : GovernorCall} {result}
    (h : call.run config s = .ok result) : call.Asserted := by
  cases call with
  | admitCacheAllocation c scratch live resident =>
    simp only [run, GovernorState.admitCacheAllocation, except_bind_ok, require_ok,
      exists_const] at h
    obtain ⟨_, ⟨hclass, hcache, hflight, hscratch, _⟩, _⟩ := h
    exact ⟨hclass, hcache, fun handed hm => ⟨hflight handed hm, hscratch handed hm⟩⟩
  | _ => trivial

theorem GovernorRun.conserves {trace : List GovernorState} (h : GovernorRun config trace s live) :
    Conserves config s live ∧
      ∀ usage k, s.peakBytes usage k = (trace.map (·.bytes usage k)).foldl max 0 := by
  induction h with
  | new =>
    exact ⟨⟨fun _ _ => rfl, fun _ => Nat.zero_le _, fun _ _ => Nat.le_refl 0⟩, fun _ _ => rfl⟩
  | call call run taken returned ih =>
    obtain ⟨hconserves, hpeaks⟩ := ih
    obtain ⟨accepted, s', outputs, hr, hnext, hpeak, -⟩ :=
      call.run_settles (GovernorCall.asserted_of_run returned) (hconserves.perm taken)
    cases returned.symm.trans hr
    refine ⟨hnext, fun usage k => ?_⟩
    rw [hpeak, hpeaks, List.map_append, List.foldl_append]
    rfl

/-- Whatever the calls were, the counters are what the live charges add up to, within the limits,
and a further call on live charges returns; a refusal changes nothing. -/
theorem governor_conserves_charges {trace : List GovernorState}
    (h : GovernorRun config trace s live) :
    (∀ usage k, s.bytes usage k = chargedBytes live usage k) ∧
    (∀ k, s.bytes none k ≤ config.limit k) ∧
    (∀ usage k, s.peakBytes usage k = (trace.map (·.bytes usage k)).foldl max 0) ∧
    ∀ (call : GovernorCall) (rest : List Charge), live.Perm (call.inputs ++ rest) →
      call.Asserted → ∃ accepted s' outputs, call.run config s = .ok (accepted, s', outputs) ∧
        (accepted = false →
          s'.bytes = s.bytes ∧ s'.peakBytes = s.peakBytes ∧ outputs = call.inputs) := by
  obtain ⟨hconserves, hpeaks⟩ := h.conserves
  refine ⟨hconserves.bytes, hconserves.limits, hpeaks, fun call rest htaken ha => ?_⟩
  obtain ⟨accepted, s', outputs, hr, -, -, hrefused⟩ :=
    call.run_settles ha (hconserves.perm htaken)
  exact ⟨accepted, s', outputs, hr, hrefused⟩

/-- A page of the index is read into scratch, which grows, and is admitted with what was read, after
another reservation was refused; then the allocation itself is dropped. -/
theorem governor_conserves_admitted :
    let page : Nat → Charge := (⟨.retained, .cache .indexPage, ·⟩)
    ∃ trace s, GovernorRun ⟨20, 10⟩ trace s [page 2, page 7, ⟨.inFlight, .scratch, 0⟩] ∧
      s.refusals .inFlight = 1 ∧
      s.bytes none .inFlight = 0 ∧ s.peakBytes none .inFlight = 10 ∧
      s.bytes none .retained = 9 ∧ s.peakBytes none .retained = 15 ∧
      ∃ s' outputs, (GovernorCall.reserve (page 12)).run ⟨20, 10⟩ s = .ok (false, s', outputs) ∧
        s'.bytes = s.bytes ∧ outputs = [] := by
  intro page
  let final : Charge := ⟨.inFlight, .cache .indexPage, 6⟩
  let scratch : Nat → Charge := (⟨.inFlight, .scratch, ·⟩)
  have hrun := (GovernorRun.new : GovernorRun ⟨20, 10⟩ _ _ _)
    |>.call (.reserve final) (.refl ([] ++ [])) rfl
    |>.call (.reserve (scratch 3)) (.refl ([] ++ [final])) rfl
    |>.call (.reserve ⟨.inFlight, .unclassified, 5⟩) (.refl ([] ++ [scratch 3, final])) rfl
    |>.call (.reconcile (scratch 3) 4) (.refl ([scratch 3] ++ [final])) rfl
    |>.call (.admitCacheAllocation final (scratch 4) 2 (some 7)) (.swap final (scratch 4) []) rfl
    |>.call (.drop (page 6)) (@List.perm_middle _ (page 6) [page 2, page 7] [scratch 0]) rfl
  obtain ⟨hbytes, -, hpeaks, hcalls⟩ := governor_conserves_charges hrun
  obtain ⟨accepted, s', outputs, hcall, hrefused⟩ :=
    hcalls (.reserve (page 12)) _ (.refl ([] ++ _)) trivial
  obtain rfl : false = accepted := (Prod.mk.inj (Except.ok.inj hcall)).1
  obtain ⟨hsame, -, houtputs⟩ := hrefused rfl
  exact ⟨_, _, hrun, rfl, hbytes none .inFlight, hpeaks none .inFlight, hbytes none .retained,
    hpeaks none .retained, s', outputs, hcall, hsame, houtputs⟩

end

end Chronoxide.Metadata
