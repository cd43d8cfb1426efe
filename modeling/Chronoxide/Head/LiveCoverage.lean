import Chronoxide.Encoding.Io
import Mathlib.Algebra.BigOperators.Group.List.Basic

/-! Accounting of recorded samples for live publication (`live_coverage.rs`): the order of a sample
in its message, the exact set of orders a window owns, and a count with a digest sum. -/

namespace Chronoxide
open Codec List

structure RecordedSampleOrder where
  messageSequence : UInt64
  sampleOrdinal : UInt64
  deriving DecidableEq, Repr

def RecordedSampleOrder.le (a b : RecordedSampleOrder) : Bool :=
  a.messageSequence < b.messageSequence ||
    (a.messageSequence == b.messageSequence && a.sampleOrdinal ≤ b.sampleOrdinal)

/-- Inclusive first and last order; it may cross messages. -/
structure RecordedSampleOrderRange where
  first : RecordedSampleOrder
  last : RecordedSampleOrder
  deriving DecidableEq, Repr

def RecordedSampleOrderRange.one (order : RecordedSampleOrder) : RecordedSampleOrderRange :=
  ⟨order, order⟩

def RecordedSampleOrderRange.checkedExtend (range : RecordedSampleOrderRange)
    (order : RecordedSampleOrder) : Except IoError RecordedSampleOrderRange := do
  require (¬order.le range.last) (invalidData (
    "recorded sample order must increase strictly: previous=(" ++
      toString range.last.messageSequence ++ ", " ++ toString range.last.sampleOrdinal ++
      ") next=(" ++ toString order.messageSequence ++ ", " ++ toString order.sampleOrdinal ++ ")"))
  return { range with last := order }

/-- Adjacent ordinals of one message. -/
structure RecordedSampleOrderRun where
  first : RecordedSampleOrder
  last : RecordedSampleOrder
  deriving DecidableEq, Repr

def RecordedSampleOrder.precedes (last first : RecordedSampleOrder) : Bool :=
  last.messageSequence == first.messageSequence &&
    last.sampleOrdinal.toNat + 1 == first.sampleOrdinal.toNat

def rangesAreAdjacent (left right : RecordedSampleOrderRun) : Bool := left.last.precedes right.first

def RecordedSampleOrderRun.sampleCount (run : RecordedSampleOrderRun) : Except IoError Nat := do
  require (run.first.messageSequence = run.last.messageSequence)
    (invalidData "recorded-sample ownership run crosses a message boundary")
  require (run.first.sampleOrdinal ≤ run.last.sampleOrdinal ∧
      run.last.sampleOrdinal.toNat - run.first.sampleOrdinal.toNat + 1 < 2 ^ 64)
    (invalidData "recorded-sample ownership run is reversed or overflows")
  return run.last.sampleOrdinal.toNat - run.first.sampleOrdinal.toNat + 1

structure RecordedSampleOrderSet where
  runs : List RecordedSampleOrderRun
  sampleCount : Nat
  deriving DecidableEq, Repr

structure PreparedRecordedSampleAppend where
  order : RecordedSampleOrder
  nextSampleCount : Nat
  extendLast : Bool
  deriving DecidableEq, Repr

namespace RecordedSampleOrderSet

def empty : RecordedSampleOrderSet := ⟨[], 0⟩

variable (set : RecordedSampleOrderSet)

def isEmpty : Bool := set.runs.isEmpty

/-- `fault` is the failure, if any, to reserve a run. -/
def tryPrepareAppend (order : RecordedSampleOrder) (fault : Option IoError)
    : Except IoError PreparedRecordedSampleAppend := do
  let previousLast := set.runs.getLast?.map (·.last)
  require (¬previousLast.any order.le)
    (invalidData "recorded-sample ownership order must increase strictly")
  require (set.sampleCount + 1 < 2 ^ 64)
    (invalidData "recorded-sample ownership count overflows u64")
  let extendLast := previousLast.any (·.precedes order)
  if !extendLast then
    if let some error := fault then throw error
  return ⟨order, set.sampleCount + 1, extendLast⟩

def commitPreparedAppend (prepared : PreparedRecordedSampleAppend) : RecordedSampleOrderSet where
  runs :=
    match prepared.extendLast, set.runs.getLast? with
    | true, some run => set.runs.dropLast ++ [{ run with last := prepared.order }]
    | _, _ => set.runs ++ [⟨prepared.order, prepared.order⟩]
  sampleCount := prepared.nextSampleCount

def validateFrom (sampleCount : Nat) :
    Option RecordedSampleOrderRun → List RecordedSampleOrderRun → Except IoError Nat
  | _, [] => .ok sampleCount
  | previous, run :: runs => do
    require (¬previous.any (fun previous => run.first.le previous.last))
      (invalidData "recorded-sample ownership runs overlap or are reordered")
    require (¬previous.any (rangesAreAdjacent · run))
      (invalidData "recorded-sample ownership contains non-canonical adjacent runs")
    let count ← run.sampleCount
    require (sampleCount + count < 2 ^ 64)
      (invalidData "recorded-sample ownership validated count overflows u64")
    validateFrom (sampleCount + count) (some run) runs

def validate : Except IoError Unit := do
  let sampleCount ← validateFrom 0 none set.runs
  require (sampleCount = set.sampleCount)
    (invalidData "recorded-sample ownership count disagrees with its exact runs")

end RecordedSampleOrderSet

/-- 32 bytes, the least significant first. -/
structure CoverageFingerprint where
  bytes : Bytes
  length_bytes : bytes.length = 32
  deriving DecidableEq, Repr

namespace CoverageFingerprint

/-- The loop of `add_assign_mod_256`; the carry out of the last byte is dropped. -/
def addCarry : Nat → Bytes → Bytes → Bytes
  | carry, target :: targets, value :: values =>
    let next := target.toNat + value.toNat + carry
    UInt8.ofNat next :: addCarry (next >>> 8) targets values
  | _, targets, _ => targets

theorem length_addCarry (carry : Nat) (targets values : Bytes) :
    (addCarry carry targets values).length = targets.length := by
  fun_induction addCarry carry targets values with
  | case1 carry target targets value values next ih => rw [length_cons, ih, length_cons]
  | case2 => rfl

theorem leNat_addCarry {carry : Nat} {targets values : Bytes}
    (h : targets.length = values.length) :
    leNat (addCarry carry targets values) =
      (leNat targets + leNat values + carry) % 256 ^ targets.length := by
  induction targets generalizing carry values with
  | nil =>
    rw [length_nil, pow_zero, Nat.mod_one]
    rfl
  | cons target targets ih =>
    obtain ⟨value, values, rfl⟩ := exists_cons_of_length_eq_add_one h.symm
    have hbyte : (UInt8.ofNat (target.toNat + value.toNat + carry)).toNat =
        (target.toNat + value.toNat + carry) % 256 := UInt8.toNat_ofNat'
    simp only [addCarry, leNat, ih (Nat.succ.inj h), hbyte, Nat.shiftRight_eq_div_pow,
      length_cons, pow_succ]
    -- the low byte and the carry make up the sum of the two heads
    rw [mul_comm (256 ^ targets.length), Nat.mod_mul]
    congr 1
    · omega
    · congr 2
      omega

def addAssignMod256 (self other : CoverageFingerprint) : CoverageFingerprint :=
  ⟨addCarry 0 self.bytes other.bytes, (length_addCarry ..).trans self.length_bytes⟩

theorem leNat_injective {a b : CoverageFingerprint} (h : leNat a.bytes = leNat b.bytes) :
    a = b := by
  obtain ⟨as, ha⟩ := a
  obtain ⟨bs, hb⟩ := b
  obtain rfl : as = bs := by rw [← leBytes_leNat as, ← leBytes_leNat bs, ha, hb, h]
  rfl

theorem leNat_lt_pow (a : CoverageFingerprint) : leNat a.bytes < 2 ^ 256 := by
  have hlt := leNat_lt a.bytes
  rw [a.length_bytes] at hlt
  exact hlt

theorem leNat_addAssignMod256 (a b : CoverageFingerprint) :
    leNat (a.addAssignMod256 b).bytes = (leNat a.bytes + leNat b.bytes) % 2 ^ 256 := by
  rw [addAssignMod256, leNat_addCarry (a.length_bytes.trans b.length_bytes.symm), a.length_bytes]
  rfl

def ofNat (n : Nat) : CoverageFingerprint := ⟨leBytes 32 n, leBytes_length 32 n⟩

def zero : CoverageFingerprint := ⟨List.replicate 32 0, rfl⟩

instance : Add CoverageFingerprint := ⟨addAssignMod256⟩
instance : Zero CoverageFingerprint := ⟨zero⟩

instance : AddCommMonoid CoverageFingerprint where
  nsmul := nsmulRec
  add_assoc a b c := leNat_injective (by
    change leNat ((a.addAssignMod256 b).addAssignMod256 c).bytes =
      leNat (a.addAssignMod256 (b.addAssignMod256 c)).bytes
    simp only [leNat_addAssignMod256, Nat.mod_add_mod, Nat.add_mod_mod, Nat.add_assoc])
  add_comm a b := leNat_injective (by
    change leNat (a.addAssignMod256 b).bytes = leNat (b.addAssignMod256 a).bytes
    rw [leNat_addAssignMod256, leNat_addAssignMod256, Nat.add_comm])
  zero_add a := leNat_injective (by
    change leNat (zero.addAssignMod256 a).bytes = leNat a.bytes
    rw [leNat_addAssignMod256, show leNat zero.bytes = 0 by decide, Nat.zero_add,
      Nat.mod_eq_of_lt a.leNat_lt_pow])
  add_zero a := leNat_injective (by
    change leNat (a.addAssignMod256 zero).bytes = leNat a.bytes
    rw [leNat_addAssignMod256, show leNat zero.bytes = 0 by decide, Nat.add_zero,
      Nat.mod_eq_of_lt a.leNat_lt_pow])

theorem leNat_sum (fingerprints : List CoverageFingerprint) :
    leNat fingerprints.sum.bytes = (fingerprints.map (leNat ·.bytes)).sum % 2 ^ 256 := by
  induction fingerprints with
  | nil => decide
  | cons fingerprint fingerprints ih =>
    rw [sum_cons, map_cons, sum_cons, ← Nat.add_mod_mod, ← ih]
    exact leNat_addAssignMod256 fingerprint fingerprints.sum

end CoverageFingerprint

structure RecordedSampleContribution where
  order : RecordedSampleOrder
  fingerprint : CoverageFingerprint
  deriving DecidableEq, Repr

structure CoverageLedger where
  sampleCount : Nat
  fingerprint : CoverageFingerprint
  deriving DecidableEq, Repr

namespace CoverageLedger

def empty : CoverageLedger := ⟨0, 0⟩

def checkedWithContribution (ledger : CoverageLedger)
    (contribution : RecordedSampleContribution) : Except IoError CoverageLedger := do
  require (ledger.sampleCount + 1 < 2 ^ 64)
    (invalidData "recorded-sample coverage count overflows u64")
  return ⟨ledger.sampleCount + 1, ledger.fingerprint + contribution.fingerprint⟩

variable (ledger other : CoverageLedger)

def checkedMerge : Except IoError CoverageLedger := do
  require (ledger.sampleCount + other.sampleCount < 2 ^ 64)
    (invalidData "merged recorded-sample coverage count overflows u64")
  return ⟨ledger.sampleCount + other.sampleCount, ledger.fingerprint + other.fingerprint⟩

theorem checkedWithContribution_eq (ledger : CoverageLedger)
    (contribution : RecordedSampleContribution) :
    ledger.checkedWithContribution contribution =
      if ledger.sampleCount + 1 < 2 ^ 64 then
        .ok ⟨ledger.sampleCount + 1, ledger.fingerprint + contribution.fingerprint⟩
      else .error (invalidData "recorded-sample coverage count overflows u64") := by
  rw [checkedWithContribution, require]
  split <;> rfl

theorem checkedMerge_eq : ledger.checkedMerge other =
      if ledger.sampleCount + other.sampleCount < 2 ^ 64 then
        .ok ⟨ledger.sampleCount + other.sampleCount, ledger.fingerprint + other.fingerprint⟩
      else .error (invalidData "merged recorded-sample coverage count overflows u64") := by
  rw [checkedMerge, require]
  split <;> rfl

def ofContributions (contributions : List RecordedSampleContribution) : CoverageLedger :=
  ⟨contributions.length, (contributions.map (·.fingerprint)).sum⟩

def IsCountOverflow (error : IoError) : Prop :=
  error = invalidData "recorded-sample coverage count overflows u64" ∨
    error = invalidData "merged recorded-sample coverage count overflows u64"

/-- The contributions are accounted for, or there are too many of them. -/
def Accounts (outcome : Except IoError CoverageLedger)
    (contributions : List RecordedSampleContribution) : Prop :=
  if contributions.length < 2 ^ 64 then outcome = .ok (ofContributions contributions)
  else ∃ error, outcome = .error error ∧ IsCountOverflow error

variable {outcome outcome' : Except IoError CoverageLedger}
  {contributions contributions' : List RecordedSampleContribution}

@[simp] theorem sampleCount_ofContributions :
    (ofContributions contributions).sampleCount = contributions.length := rfl

theorem ofContributions_append :
    ofContributions (contributions ++ contributions') =
      ⟨(ofContributions contributions).sampleCount + (ofContributions contributions').sampleCount,
        (ofContributions contributions).fingerprint +
          (ofContributions contributions').fingerprint⟩ := by
  simp [ofContributions]

theorem ofContributions_perm (h : contributions.Perm contributions') :
    ofContributions contributions = ofContributions contributions' := by
  rw [ofContributions, ofContributions, h.length_eq, (h.map _).sum_eq]

theorem accounts_of_le (hlarge : 2 ^ 64 ≤ contributions.length) {error : IoError}
    (herror : outcome = .error error) (hoverflow : IsCountOverflow error) :
    Accounts outcome contributions := by
  rw [Accounts, if_neg (Nat.not_lt.mpr hlarge)]
  exact ⟨error, herror, hoverflow⟩

theorem foldlM_accounts (hdone : contributions.length < 2 ^ 64) :
    Accounts (contributions'.foldlM checkedWithContribution (ofContributions contributions))
      (contributions ++ contributions') := by
  induction contributions' generalizing contributions with
  | nil =>
    rw [append_nil, Accounts, if_pos hdone]
    rfl
  | cons contribution contributions' ih =>
    rw [foldlM_cons, checkedWithContribution_eq]
    split
    · rename_i hfits
      have hrest := @ih (contributions ++ [contribution]) (by simpa using hfits)
      simpa [ofContributions, bind, Except.bind] using hrest
    rename_i hlarge
    refine accounts_of_le ?_ rfl (.inl rfl)
    rw [sampleCount_ofContributions] at hlarge
    rw [length_append, length_cons]
    omega

theorem Accounts.checkedMerge (h : Accounts outcome contributions)
    (h' : Accounts outcome' contributions') :
    Accounts (do (← outcome).checkedMerge (← outcome')) (contributions ++ contributions') := by
  have hlength := @length_append _ contributions contributions'
  unfold Accounts at h h'
  split at h
  · subst h
    split at h'
    · subst h'
      change Accounts ((ofContributions contributions).checkedMerge _) _
      rw [checkedMerge_eq, sampleCount_ofContributions, sampleCount_ofContributions]
      split
      · rename_i hfits
        rw [Accounts, hlength, if_pos hfits, ofContributions_append]
        rfl
      · rename_i hlarge
        exact accounts_of_le (hlength ▸ Nat.not_lt.mp hlarge) rfl (.inr rfl)
    · obtain ⟨error, rfl, hoverflow⟩ := h'
      exact accounts_of_le (by omega) rfl hoverflow
  · obtain ⟨error, rfl, hoverflow⟩ := h
    exact accounts_of_le (by omega) rfl hoverflow

end CoverageLedger

/-- A division of contributions into ordered groups, and an order to merge their ledgers in. -/
inductive LedgerSplit
  | group (contributions : List RecordedSampleContribution)
  | merge (left right : LedgerSplit)

namespace LedgerSplit

def contributions : LedgerSplit → List RecordedSampleContribution
  | group contributions => contributions
  | merge left right => left.contributions ++ right.contributions

def ledger : LedgerSplit → Except IoError CoverageLedger
  | group contributions => contributions.foldlM CoverageLedger.checkedWithContribution .empty
  | merge left right => do (← left.ledger).checkedMerge (← right.ledger)

theorem ledger_accounts (split : LedgerSplit) :
    CoverageLedger.Accounts split.ledger split.contributions := by
  induction split with
  | group contributions => exact @CoverageLedger.foldlM_accounts [] contributions (by decide)
  | merge left right ihLeft ihRight => exact ihLeft.checkedMerge ihRight

end LedgerSplit

open CoverageLedger in
/-- However the contributions are grouped, ordered and merged, one ledger comes out, and it sums
their fingerprints as numbers; too many of them fail under every split. -/
theorem ledger_independent_of_split {split other : LedgerSplit}
    (hsame : split.contributions.Perm other.contributions) :
    (split.contributions.length < 2 ^ 64 →
      ∃ ledger, split.ledger = .ok ledger ∧ other.ledger = .ok ledger ∧
        ledger.sampleCount = split.contributions.length ∧
        leNat ledger.fingerprint.bytes =
          (split.contributions.map (leNat ·.fingerprint.bytes)).sum % 2 ^ 256) ∧
    (2 ^ 64 ≤ split.contributions.length →
      (∃ error, split.ledger = .error error ∧ IsCountOverflow error) ∧
        ∃ error, other.ledger = .error error ∧ IsCountOverflow error) := by
  have hsplit := split.ledger_accounts
  have hother := other.ledger_accounts
  rw [Accounts] at hsplit hother
  rw [← hsame.length_eq] at hother
  constructor
  · intro hfits
    rw [if_pos hfits] at hsplit hother
    rw [← ofContributions_perm hsame] at hother
    refine ⟨_, hsplit, hother, rfl, ?_⟩
    rw [ofContributions, CoverageFingerprint.leNat_sum, map_map]
    rfl
  · intro hlarge
    rw [if_neg (Nat.not_lt.mpr hlarge)] at hsplit hother
    exact ⟨hsplit, hother⟩

theorem ledger_independent_of_split_two_groups :
    let high : RecordedSampleContribution := ⟨⟨1, 0⟩, ⟨List.replicate 32 255, rfl⟩⟩
    let low : RecordedSampleContribution := ⟨⟨1, 1⟩, ⟨2 :: List.replicate 31 0, rfl⟩⟩
    ∃ ledger, (LedgerSplit.group [high, low]).ledger = .ok ledger ∧
      ((LedgerSplit.group [low]).merge (.group [high])).ledger = .ok ledger ∧
      ledger.sampleCount = 2 ∧ leNat ledger.fingerprint.bytes = 1 := by
  intro high low
  have hsame : (LedgerSplit.group [high, low]).contributions.Perm
      ((LedgerSplit.group [low]).merge (.group [high])).contributions := List.Perm.swap low high []
  obtain ⟨ledger, hsplit, hother, hcount, hsum⟩ :=
    (ledger_independent_of_split hsame).1 (by decide)
  exact ⟨ledger, hsplit, hother, hcount, hsum.trans (by decide)⟩

end Chronoxide
