import Chronoxide.Encoding.Io

/-! Sample values and the shape checks they pass before storage (`head/types.rs`). -/

namespace Chronoxide

structure SeriesRef where
  get : UInt32
  deriving DecidableEq, Repr

namespace F64

variable (x : F64)

/-- Exponent and fraction, without the sign. -/
def magnitude : Nat := x.bits.toNat % 2 ^ 63

def isNaN : Bool := 0x7ff0000000000000 < x.magnitude

def isFinite : Bool := x.magnitude < 0x7ff0000000000000

/-- The position of a non-NaN value on the real line; both zeros are at 0. -/
def position : Int := if x.bits.toNat < 2 ^ 63 then x.magnitude else -(x.magnitude : Int)

def le (a b : F64) : Bool := !a.isNaN && !b.isNaN && a.position ≤ b.position

def ge (a b : F64) : Bool := le b a

def zero : F64 := ⟨0⟩
def one : F64 := ⟨0x3ff0000000000000⟩

def inUnitRange : Bool := le zero x && le x one

end F64

inductive SampleKind
  | float
  | int64
  | histogram
  | exponentialHistogram
  | summary
  deriving DecidableEq, Repr

inductive OtlpAggregationTemporality
  | unspecified
  | delta
  | cumulative
  deriving DecidableEq, Repr

inductive CounterResetHint
  | unknown
  | counterReset
  | notCounterReset
  | gaugeType
  deriving DecidableEq, Repr

structure TypedSampleMetadata where
  startTimeMs : Option UInt64
  flags : UInt32
  temporality : OtlpAggregationTemporality
  resetHint : CounterResetHint
  deriving DecidableEq, Repr

structure HistogramValue where
  count : UInt64
  sum : Option F64
  min : Option F64
  max : Option F64
  metadata : TypedSampleMetadata
  explicitBounds : List F64
  bucketCounts : List UInt64
  deriving DecidableEq, Repr

structure ExponentialHistogramBuckets where
  offset : Int32
  counts : List UInt64
  deriving DecidableEq, Repr

structure ExponentialHistogramValue where
  count : UInt64
  sum : Option F64
  min : Option F64
  max : Option F64
  scale : Int32
  zeroThreshold : F64
  zeroCount : UInt64
  metadata : TypedSampleMetadata
  positive : ExponentialHistogramBuckets
  negative : ExponentialHistogramBuckets
  deriving DecidableEq, Repr

structure SummaryQuantileValue where
  quantile : F64
  value : F64
  deriving DecidableEq, Repr

structure SummaryValue where
  count : UInt64
  sum : F64
  metadata : TypedSampleMetadata
  quantiles : List SummaryQuantileValue
  deriving DecidableEq, Repr

inductive SampleValue
  | float (value : F64)
  | int64 (value : Int64)
  | histogram (value : HistogramValue)
  | exponentialHistogram (value : ExponentialHistogramValue)
  | summary (value : SummaryValue)
  deriving DecidableEq, Repr

def SampleValue.kind : SampleValue → SampleKind
  | .float _ => .float
  | .int64 _ => .int64
  | .histogram _ => .histogram
  | .exponentialHistogram _ => .exponentialHistogram
  | .summary _ => .summary

/-- The counter fields the typed kinds share (`TypedCounterValue`). -/
class TypedCounterValue (T : Type) where
  metadata : T → TypedSampleMetadata
  count : T → UInt64
  sum : T → Option F64

instance : TypedCounterValue HistogramValue := ⟨(·.metadata), (·.count), (·.sum)⟩
instance : TypedCounterValue ExponentialHistogramValue := ⟨(·.metadata), (·.count), (·.sum)⟩
instance : TypedCounterValue SummaryValue := ⟨(·.metadata), (·.count), fun v => some v.sum⟩

/-- `windows(2).any(|pair| pair[0] >= pair[1])` is false. -/
def strictlyAscending : List F64 → Bool
  | a :: b :: rest => !F64.ge a b && strictlyAscending (b :: rest)
  | _ => true

def checkedAddU64 (a b : UInt64) : Option UInt64 :=
  if a.toNat + b.toNat < 2 ^ 64 then some (a + b) else none

def checkedCountTotal (counts : List UInt64) (errorKind : ErrorKind) (field : String) :
    Except IoError UInt64 :=
  counts.foldlM (fun total value =>
    match checkedAddU64 total value with
    | some sum => .ok sum
    | none => .error ⟨errorKind, field ++ " bucket total overflows u64"⟩) 0

def validateHistogramSchemaShape (explicitBounds : List F64) (bucketCount : Nat)
    (errorKind : ErrorKind) : Except IoError Unit :=
  if explicitBounds.any (fun bound => !bound.isFinite) ∨ ¬strictlyAscending explicitBounds then
    .error ⟨errorKind, "histogram explicit bounds must be finite and strictly ascending"⟩
  else if explicitBounds.length + 1 ≥ 2 ^ 64 then
    .error ⟨errorKind, "histogram bucket length overflows"⟩
  else if bucketCount ≠ explicitBounds.length + 1 then
    .error ⟨errorKind, "histogram bucket length must equal explicit bounds plus one"⟩
  else .ok ()

def validateHistogramBucketTotal (bucketCounts : List UInt64) (count : UInt64)
    (errorKind : ErrorKind) : Except IoError Unit := do
  let total ← checkedCountTotal bucketCounts errorKind "histogram"
  if total ≠ count then
    throw ⟨errorKind, "histogram bucket total must equal count"⟩

def validateHistogramShape (explicitBounds : List F64) (bucketCounts : List UInt64)
    (count : UInt64) (errorKind : ErrorKind) : Except IoError Unit := do
  validateHistogramSchemaShape explicitBounds bucketCounts.length errorKind
  validateHistogramBucketTotal bucketCounts count errorKind

def validateExponentialHistogramShape (zeroCount : UInt64)
    (positiveCounts negativeCounts : List UInt64) (count : UInt64) (errorKind : ErrorKind) :
    Except IoError Unit := do
  let total ← checkedCountTotal (zeroCount :: (positiveCounts ++ negativeCounts)) errorKind
    "exponential histogram"
  if total ≠ count then
    throw ⟨errorKind, "exponential histogram bucket total must equal count"⟩

def quantilePositionsMessage : String :=
  "summary quantile positions must be finite, within [0, 1], and strictly ascending"

def validateSummaryQuantilePositionsFrom (previous : Option F64) (errorKind : ErrorKind) :
    List F64 → Except IoError Unit
  | [] => .ok ()
  | quantile :: rest =>
    if !quantile.isFinite ∨ !quantile.inUnitRange ∨ previous.any (F64.ge · quantile) then
      .error ⟨errorKind, quantilePositionsMessage⟩
    else validateSummaryQuantilePositionsFrom (some quantile) errorKind rest

def validateSummaryQuantilePositions (quantiles : List F64) (errorKind : ErrorKind) :
    Except IoError Unit :=
  validateSummaryQuantilePositionsFrom none errorKind quantiles

def SampleValue.validateForStorage : SampleValue → Except IoError Unit
  | .float _ | .int64 _ => .ok ()
  | .histogram value =>
    validateHistogramShape value.explicitBounds value.bucketCounts value.count .invalidInput
  | .exponentialHistogram value =>
    validateExponentialHistogramShape value.zeroCount value.positive.counts
      value.negative.counts value.count .invalidInput
  | .summary value =>
    validateSummaryQuantilePositions (value.quantiles.map (·.quantile)) .invalidInput

def countSum (counts : List UInt64) : Nat := (counts.map UInt64.toNat).sum

theorem checkedAddU64_eq_some {a b c : UInt64} :
    checkedAddU64 a b = some c ↔ a.toNat + b.toNat = c.toNat := by
  unfold checkedAddU64
  split
  · rename_i h
    rw [Option.some.injEq, ← UInt64.toNat_inj, UInt64.toNat_add, Nat.mod_eq_of_lt h]
  rename_i h
  have := c.toNat_lt
  simp only [reduceCtorEq, false_iff]
  omega

variable {kind : ErrorKind}

theorem checkedCountTotal_ok {counts : List UInt64} {field : String} {total : UInt64} :
    checkedCountTotal counts kind field = .ok total ↔ countSum counts = total.toNat := by
  suffices h : ∀ acc : UInt64, counts.foldlM (fun total value =>
      match checkedAddU64 total value with
      | some sum => Except.ok sum
      | none => .error (⟨kind, field ++ " bucket total overflows u64"⟩ : IoError)) acc = .ok total ↔
      acc.toNat + countSum counts = total.toNat by
    simpa [checkedCountTotal] using h 0
  induction counts with
  | nil =>
    intro acc
    simp [countSum, pure, Except.pure, UInt64.toNat_inj]
  | cons c counts ih =>
    intro acc
    rw [List.foldlM_cons]
    have hsum : countSum (c :: counts) = c.toNat + countSum counts := by simp [countSum]
    rw [hsum, ← Nat.add_assoc]
    cases hadd : checkedAddU64 acc c with
    | none =>
      have hover : ¬ acc.toNat + c.toNat < 2 ^ 64 := fun hlt => by
        rw [checkedAddU64, if_pos hlt] at hadd
        cases hadd
      have := total.toNat_lt
      simp only [bind, Except.bind, reduceCtorEq, false_iff]
      omega
    | some sum =>
      rw [checkedAddU64_eq_some] at hadd
      rw [hadd]
      exact ih sum

def BoundsOk (bounds : List F64) : Prop :=
  (∀ bound ∈ bounds, bound.isFinite) ∧ strictlyAscending bounds

instance (bounds : List F64) : Decidable (BoundsOk bounds) :=
  inferInstanceAs (Decidable (_ ∧ _))

theorem validateHistogramSchemaShape_ok {bounds : List F64} {n : Nat} :
    validateHistogramSchemaShape bounds n kind = .ok () ↔
      BoundsOk bounds ∧ bounds.length + 1 < 2 ^ 64 ∧ n = bounds.length + 1 := by
  unfold validateHistogramSchemaShape BoundsOk
  split
  · rename_i hbad
    simp only [reduceCtorEq, false_iff]
    rintro ⟨⟨hfinite, hasc⟩, -⟩
    rcases hbad with h | h
    · obtain ⟨b, hb, hnot⟩ := List.any_eq_true.mp h
      simp [hfinite b hb] at hnot
    · exact h hasc
  rename_i hgood
  rw [not_or, not_not, Bool.not_eq_true, List.any_eq_false] at hgood
  split
  · simp only [reduceCtorEq, false_iff]
    omega
  split
  · simp only [reduceCtorEq, false_iff]
    omega
  · simp only [true_iff]
    exact ⟨⟨fun b hb => by simpa using hgood.1 b hb, hgood.2⟩, by omega, by omega⟩

theorem validateHistogramBucketTotal_ok {counts : List UInt64} {count : UInt64} :
    validateHistogramBucketTotal counts count kind = .ok () ↔ countSum counts = count.toNat := by
  rw [validateHistogramBucketTotal, Codec.except_bind_ok]
  simp only [checkedCountTotal_ok]
  constructor
  · rintro ⟨total, htotal, h⟩
    split at h
    · cases h
    · rename_i heq
      rw [not_not] at heq
      rw [htotal, heq]
  · intro h
    exact ⟨count, h, if_neg (by simp)⟩

theorem validateExponentialHistogramShape_ok {zero : UInt64} {pos neg : List UInt64}
    {count : UInt64} {u : Unit} :
    validateExponentialHistogramShape zero pos neg count kind = .ok u ↔
      zero.toNat + countSum pos + countSum neg = count.toNat := by
  have hsum : countSum (zero :: (pos ++ neg)) = zero.toNat + countSum pos + countSum neg := by
    simp [countSum, Nat.add_assoc]
  rw [validateExponentialHistogramShape, Codec.except_bind_ok]
  simp only [checkedCountTotal_ok, hsum]
  constructor
  · rintro ⟨total, htotal, h⟩
    split at h
    · cases h
    · rename_i heq
      rw [not_not] at heq
      rw [htotal, heq]
  · intro h
    exact ⟨count, h, if_neg (by simp)⟩

def ascendingFrom : Option F64 → List F64 → Bool
  | _, [] => true
  | previous, x :: rest => !previous.any (F64.ge · x) && ascendingFrom (some x) rest

theorem strictlyAscending_eq (xs : List F64) : strictlyAscending xs = ascendingFrom none xs := by
  have hcons : ∀ (xs : List F64) (x : F64),
      strictlyAscending (x :: xs) = ascendingFrom (some x) xs := by
    intro xs
    induction xs with
    | nil => intro x; rfl
    | cons y ys ih => intro x; rw [strictlyAscending, ih]; rfl
  cases xs with
  | nil => rfl
  | cons x xs => rw [hcons]; rfl

def QuantilesOk (quantiles : List F64) : Prop :=
  (∀ q ∈ quantiles, q.isFinite ∧ q.inUnitRange) ∧ ascendingFrom none quantiles

instance (quantiles : List F64) : Decidable (QuantilesOk quantiles) :=
  inferInstanceAs (Decidable (_ ∧ _))

theorem validateSummaryQuantilePositions_ok {quantiles : List F64} {u : Unit} :
    validateSummaryQuantilePositions quantiles kind = .ok u ↔ QuantilesOk quantiles := by
  suffices h : ∀ previous,
      validateSummaryQuantilePositionsFrom previous kind quantiles = .ok () ↔
        (∀ q ∈ quantiles, q.isFinite ∧ q.inUnitRange) ∧ ascendingFrom previous quantiles from
    h none
  induction quantiles with
  | nil => intro previous; simp [validateSummaryQuantilePositionsFrom, ascendingFrom]
  | cons q rest ih =>
    intro previous
    rw [validateSummaryQuantilePositionsFrom, ascendingFrom]
    split
    · rename_i hbad
      simp only [reduceCtorEq, List.mem_cons, forall_eq_or_imp, false_iff]
      rintro ⟨⟨⟨hfin, hunit⟩, -⟩, hasc⟩
      simp_all
    · rename_i hgood
      simp_all

end Chronoxide
