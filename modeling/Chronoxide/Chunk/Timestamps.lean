import Chronoxide.Encoding.SchemaVarlen

/-! The timestamps of a chunk: deltas from the first one on disk, and the order and range checks of
writer and reader. -/

namespace Chronoxide
open Codec List

def saturatingSub (a b : UInt64) : UInt64 := if a < b then 0 else a - b

def encodeDelta (t0Ms timestampMs : UInt64) : Bytes :=
  encodeVarint (saturatingSub timestampMs t0Ms)

def encodeDeltas (t0Ms : UInt64) (timestamps : List UInt64) : Bytes :=
  timestamps.flatMap (encodeDelta t0Ms)

def checkedTimestampMs (t0Ms deltaMs : UInt64) : Except IoError UInt64 :=
  (checkedAddU64 t0Ms deltaMs).elim (.error (invalidData "chunk timestamp overflows u64")) .ok

def decodeTimestamp (t0Ms : UInt64) : Reader UInt64 := do
  let dt ← decodeVarint
  Parser.lift (checkedTimestampMs t0Ms dt)

def decodeTimestamps (t0Ms : UInt64) (pointCount : Nat) : Reader (List UInt64) := do
  ensureMinimumEncodedItems pointCount 1 "timestamp deltas"
  (decodeTimestamp t0Ms).times pointCount

theorem checkedTimestampMs_ok {t0 dt t : UInt64} :
    checkedTimestampMs t0 dt = .ok t ↔ t0 ≤ t ∧ dt = saturatingSub t t0 := by
  have hadd : checkedTimestampMs t0 dt = .ok t ↔ checkedAddU64 t0 dt = some t := by
    unfold checkedTimestampMs
    cases checkedAddU64 t0 dt <;> simp
  rw [hadd, checkedAddU64_eq_some, UInt64.le_iff_toNat_le, ← UInt64.toNat_inj, saturatingSub]
  split
  · rename_i hlt
    rw [UInt64.lt_iff_toNat_lt] at hlt
    omega
  rename_i hge
  rw [UInt64.lt_iff_toNat_lt] at hge
  rw [UInt64.toNat_sub_of_le _ _ (UInt64.le_iff_toNat_le.mpr (by omega))]
  omega

theorem decodeTimestamp_codes (t0 : UInt64) :
    Parser.Codes (decodeTimestamp t0) (t0 ≤ ·) (encodeDelta t0) := by
  intro bs t rest
  simp only [decodeTimestamp, Parser.bind_ok, decodeVarint_ok, Parser.lift_ok,
    checkedTimestampMs_ok]
  constructor
  · rintro ⟨dt, _, rfl, ⟨hle, rfl⟩, rfl⟩
    exact ⟨hle, rfl⟩
  · rintro ⟨hle, rfl⟩
    exact ⟨_, _, rfl, ⟨hle, rfl⟩, rfl⟩

theorem encodeDelta_length_pos (t0 t : UInt64) : 1 ≤ (encodeDelta t0 t).length :=
  encodeVarint_length_pos _

theorem encodeDeltas_length_ge (t0 : UInt64) (ts : List UInt64) :
    ts.length ≤ (encodeDeltas t0 ts).length := by
  have h := length_flatMap_ge (encodeDelta_length_pos t0) ts
  rw [Nat.mul_one] at h
  exact h

section Deltas
variable {t0 : UInt64} {n : Nat} {bs rest : Bytes} {ts : List UInt64}

theorem timesTimestamp_ok :
    (decodeTimestamp t0).times n bs = .ok (ts, rest) ↔
      (ts.length = n ∧ ∀ t ∈ ts, t0 ≤ t) ∧ bs = encodeDeltas t0 ts ++ rest :=
  (decodeTimestamp_codes t0).times n bs ts rest

theorem decodeTimestamps_ok (hbs : bs.length < 2 ^ 64) :
    decodeTimestamps t0 n bs = .ok (ts, rest) ↔
      (ts.length = n ∧ ∀ t ∈ ts, t0 ≤ t) ∧ bs = encodeDeltas t0 ts ++ rest := by
  simp only [decodeTimestamps, ensureMinimumEncodedItems, Parser.bind_ok,
    ensureDecodedItemsFit_ok, Parser.exists_ensure, timesTimestamp_ok]
  constructor
  · exact fun h => h.2
  rintro ⟨⟨rfl, hle⟩, rfl⟩
  have hfit : ts.length * 1 ≤ (encodeDeltas t0 ts ++ rest).length := by
    have := encodeDeltas_length_ge t0 ts
    rw [length_append]
    omega
  exact ⟨⟨by omega, hfit⟩, ⟨rfl, hle⟩, rfl⟩

end Deltas

/-- `windows(2).any(|pair| pair[0] > pair[1])`. -/
def outOfOrder (timestamps : List UInt64) : Bool :=
  (timestamps.zip timestamps.tail).any fun (a, b) => a > b

def validateOrderedSamples {V : Type} (samples : List (UInt64 × V)) : Except IoError Unit :=
  if samples = [] then .error (invalidInput "samples must be non-empty")
  else if outOfOrder (samples.map (·.1)) then
    .error (invalidInput "ordered samples must be sorted by timestamp")
  else .ok ()

/-- The loop of `validate_timestamp_iter`: first and last timestamp of an ordered list. -/
def scanTimestamps (notOrdered : String) :
    Option UInt64 → Option UInt64 → List UInt64 → Except IoError (Option UInt64 × Option UInt64)
  | first, previous, [] => .ok (first, previous)
  | first, previous, timestamp :: rest =>
    if previous.any (timestamp < ·) then .error (invalidData notOrdered)
    else scanTimestamps notOrdered (first.or (some timestamp)) (some timestamp) rest

def validateTimestampIter (numPoints : UInt32) (minTimeMs maxTimeMs : UInt64)
    (timestamps : List UInt64) : Except IoError Unit :=
  if timestamps.length ≠ numPoints.toNat then
    .error (invalidData "decoded point count disagrees with the chunk header")
  else do
    let (first, previous) ←
      scanTimestamps "decoded chunk timestamps are not ordered" none none timestamps
    if first ≠ some minTimeMs ∨ previous ≠ some maxTimeMs then
      throw (invalidData "decoded timestamp range disagrees with the chunk header")

structure TimeRange (min max : UInt64) (timestamps : List UInt64) : Prop where
  first : timestamps.head? = some min
  last : timestamps.getLast? = some max
  ordered : timestamps.Pairwise (· ≤ ·)

variable {ts : List UInt64}

theorem TimeRange.ne_nil {min max : UInt64} (h : TimeRange min max ts) : ts ≠ [] := by
  rintro rfl
  cases h.first

theorem TimeRange.min_le {min max : UInt64} (h : TimeRange min max ts) : ∀ t ∈ ts, min ≤ t := by
  obtain ⟨hfirst, -, hordered⟩ := h
  cases ts with
  | nil => cases hfirst
  | cons t ts =>
    cases hfirst
    exact forall_mem_cons.mpr
      ⟨UInt64.le_refl _, fun _ => rel_of_pairwise_cons hordered⟩

theorem scanTimestamps_ok {message : String} {f p : Option UInt64}
    {r : Option UInt64 × Option UInt64} :
    scanTimestamps message f p ts = .ok r ↔
      List.IsChain (· ≤ ·) (p.toList ++ ts) ∧ r = (f.or ts.head?, ts.getLast?.or p) := by
  induction ts generalizing f p with
  | nil =>
    have hchain : List.IsChain (· ≤ ·) (p.toList ++ []) := by cases p <;> simp
    simp only [scanTimestamps, Except.ok.injEq, hchain, true_and, head?_nil, Option.or_none,
      getLast?_nil, Option.none_or, eq_comm]
  | cons t ts ih =>
    rw [scanTimestamps]
    have hlast : (t :: ts).getLast?.or p = ts.getLast?.or (some t) := by
      rw [getLast?_cons]
      cases ts.getLast? <;> rfl
    have hfirst : f.or (t :: ts).head? = (f.or (some t)).or ts.head? := by
      cases f <;> simp
    cases p with
    | none =>
      rw [Option.any_none, if_neg (by simp), ih, hlast, hfirst]
      rfl
    | some q =>
      have htail : scanTimestamps message (f.or (some t)) (some t) ts = .ok r ↔
          List.IsChain (· ≤ ·) (t :: ts) ∧ r = ((f.or (some t)).or ts.head?, _) := ih
      rw [Option.any_some, hlast, hfirst]
      change _ ↔ List.IsChain (· ≤ ·) (q :: t :: ts) ∧ _
      rw [isChain_cons_cons, and_assoc, ← htail]
      split
      · rename_i hlt
        have hnot : ¬ q ≤ t := UInt64.not_le.mpr (by simpa using hlt)
        simp [hnot]
      · rename_i hnlt
        have hle : q ≤ t := UInt64.not_lt.mp (by simpa using hnlt)
        simp [hle]

instance uint64LeTrans : Trans (fun a b : UInt64 => a ≤ b) (fun a b => a ≤ b) (fun a b => a ≤ b) :=
  ⟨UInt64.le_trans⟩

theorem validateTimestampIter_ok {n : UInt32} {min max : UInt64} {u : Unit} :
    validateTimestampIter n min max ts = .ok u ↔ ts.length = n.toNat ∧ TimeRange min max ts := by
  rw [validateTimestampIter]
  split
  · rename_i hne
    simp [hne]
  rename_i hlen
  rw [not_not] at hlen
  rw [except_bind_ok]
  simp only [scanTimestamps_ok, Option.toList_none, nil_append, Option.none_or,
    Option.or_none, isChain_iff_pairwise, hlen, true_and]
  constructor
  · rintro ⟨_, ⟨hordered, rfl⟩, h⟩
    split at h
    · cases h
    · rename_i hrange
      rw [not_or, not_not, not_not] at hrange
      exact ⟨hrange.1, hrange.2, hordered⟩
  · rintro ⟨hfirst, hlast, hordered⟩
    refine ⟨_, ⟨hordered, rfl⟩, ?_⟩
    rw [hfirst, hlast]
    simp [pure, Except.pure]

theorem outOfOrder_eq_false : outOfOrder ts = false ↔ ts.Pairwise (· ≤ ·) := by
  rw [← isChain_iff_pairwise]
  induction ts with
  | nil => simp [outOfOrder]
  | cons a ts ih =>
    cases ts with
    | nil => simp [outOfOrder]
    | cons b ts =>
      rw [isChain_cons_cons, ← ih]
      simp [outOfOrder, UInt64.not_lt]

theorem validateOrderedSamples_ok {V : Type} {samples : List (UInt64 × V)} {u : Unit} :
    validateOrderedSamples samples = .ok u ↔
      samples ≠ [] ∧ (samples.map (·.1)).Pairwise (· ≤ ·) := by
  rw [validateOrderedSamples, ← outOfOrder_eq_false]
  split
  · rename_i h
    simp [h]
  · rename_i h
    split <;> simp_all

end Chronoxide
