import Chronoxide.Collections.KeepLast
import Chronoxide.Head.Block
import Chronoxide.Promql.Normalize

/-! Label sets of OTLP datapoints (`otlp_labelset.rs`), built in two ways: all labels sorted at
once, or the labels of a resource prepared once and merged with those of each datapoint. -/

namespace Chronoxide

/-- An attribute value. The values that are skipped carry nothing that is read. -/
inductive AnyValue
  | stringValue (value : String)
  | boolValue (value : Bool)
  | intValue (value : Int64)
  | doubleValue (value : F64)
  | bytesValue
  | arrayValue
  | kvlistValue
  | stringValueStrindex
  deriving DecidableEq, Repr

/-- An attribute: both its value and the content of that value may be missing. -/
structure OtlpKeyValue where
  key : String
  value : Option (Option AnyValue)
  deriving DecidableEq, Repr

/-- A slice has at most `isize::MAX` elements. -/
abbrev OtlpKeyValues := { kvs : List OtlpKeyValue // kvs.length ≤ isizeMax }

/-- A value that is borrowed from an attribute, or the place of a formatted one. -/
inductive TmpValue
  | borrowed (value : String)
  | scratch (index : Nat)
  deriving DecidableEq, Repr

structure TmpLabel where
  key : String
  value : TmpValue
  rank : Nat
  ordinal : Nat
  deriving DecidableEq, Repr

-- The index of a label is always one of the values it was pushed with.
variable (scratchValues : List String)

def TmpValue.asStr : TmpValue → String
  | borrowed value => value
  | scratch index => scratchValues[index]?.getD ""

def TmpLabel.pair (label : TmpLabel) : String × String :=
  (label.key, label.value.asStr scratchValues)

theorem TmpLabel.pair_fst (label : TmpLabel) : (label.pair scratchValues).1 = label.key := rfl

/-- Labels and formatted values collected so far, with the number of skipped attributes. -/
structure PushedKvs where
  labels : List TmpLabel
  scratchValues : List String
  skipped : Nat

section
variable (formatDouble : F64 → String)

/-- A text is borrowed, a scalar is formatted into the scratch values, anything else is skipped. -/
def PushedKvs.pushValue (out : PushedKvs) (key : String) (rank : Nat) (value : AnyValue) :
    PushedKvs :=
  let push := fun (value : TmpValue) (scratchValues : List String) =>
    { out with
      labels := out.labels ++ [⟨key, value, rank, out.labels.length⟩]
      scratchValues }
  let format := fun (text : String) =>
    push (.scratch out.scratchValues.length) (out.scratchValues ++ [text])
  match value with
  | .stringValue value => push (.borrowed value) out.scratchValues
  | .boolValue value => format (toString value)
  | .intValue value => format (toString value.toInt)
  | .doubleValue value => format (formatDouble value)
  | .bytesValue | .arrayValue | .kvlistValue | .stringValueStrindex =>
    { out with skipped := out.skipped + 1 }

def pushKv (rank : Nat) (out : PushedKvs) (kv : OtlpKeyValue) : PushedKvs :=
  if kv.key = "" ∨ kv.key = metricNameLabel then out
  else
    match kv.value.bind id with
    | none => out
    | some value => out.pushValue formatDouble kv.key rank value

def pushKvs (out : PushedKvs) (kvs : List OtlpKeyValue) (rank : Nat) : PushedKvs :=
  kvs.foldl (pushKv formatDouble rank) out

end

variable (a b : TmpLabel)

def TmpLabel.le : Bool :=
  a.key < b.key || (a.key == b.key &&
    (a.rank < b.rank || (a.rank == b.rank && a.ordinal ≤ b.ordinal)))

def sortAndDedupLabels (labels : List TmpLabel) : List TmpLabel :=
  KeepLast.keepLast TmpLabel.key (labels.mergeSort TmpLabel.le)

/-- The labels of a datapoint as the interner iterates over them, and the number of callbacks for
skipped attributes. -/
structure BuiltLabelSet where
  labels : List (String × String)
  skippedNonScalar : Nat
  deriving DecidableEq, Repr

section
variable (formatDouble : F64 → String) (resourceAttrs : OtlpKeyValues)

/-- The scratch vectors that a caller hands in are cleared first, so they are no arguments. -/
def buildCanonicalLabelset (metricName : String) (datapointAttrs : OtlpKeyValues) : BuiltLabelSet :=
  let metric : PushedKvs := ⟨[⟨metricNameLabel, .borrowed metricName, 3, 0⟩], [], 0⟩
  let resource := pushKvs formatDouble metric resourceAttrs 0
  let out := pushKvs formatDouble resource datapointAttrs 2
  ⟨(sortAndDedupLabels out.labels).map (TmpLabel.pair out.scratchValues), out.skipped⟩

structure PreparedOtlpResourceLabels where
  labels : List TmpLabel
  scratchValues : List String
  skippedNonScalar : Nat

def PreparedOtlpResourceLabels.new : PreparedOtlpResourceLabels :=
  let out := pushKvs formatDouble ⟨[], [], 0⟩ resourceAttrs 0
  ⟨sortAndDedupLabels out.labels, out.scratchValues, min out.skipped (counterMax 64)⟩

inductive PreparedCanonicalValue
  | borrowed (value : String)
  | resourceScratch (index : Nat)
  | datapointScratch (index : Nat)

variable (resourceValues datapointValues : List String)

def PreparedCanonicalValue.asStr : PreparedCanonicalValue → String
  | borrowed value => value
  | resourceScratch index => resourceValues[index]?.getD ""
  | datapointScratch index => datapointValues[index]?.getD ""

structure PreparedCanonicalLabel where
  key : String
  value : PreparedCanonicalValue

def preparedResourceLabel (label : TmpLabel) : PreparedCanonicalLabel :=
  ⟨label.key, match label.value with
    | .borrowed value => .borrowed value
    | .scratch index => .resourceScratch index⟩

def preparedDatapointLabel (label : TmpLabel) : PreparedCanonicalLabel :=
  ⟨label.key, match label.value with
    | .borrowed value => .borrowed value
    | .scratch index => .datapointScratch index⟩

def nextAttributeKey (resource datapoint : List TmpLabel) : Option String :=
  match resource, datapoint with
  | r :: _, d :: _ => some (min r.key d.key)
  | r :: _, [] => some r.key
  | [], d :: _ => some d.key
  | [], [] => none

/-- The loop of `merge_prepared_labels`, on the labels that were not merged yet. -/
def mergePreparedLabels (metricName : String) (resource datapoint : List TmpLabel)
    (metricPending : Bool) : List PreparedCanonicalLabel :=
  if metricPending ∧ (nextAttributeKey resource datapoint).all (metricNameLabel < ·) then
    ⟨metricNameLabel, .borrowed metricName⟩ ::
      mergePreparedLabels metricName resource datapoint false
  else
    match resource, datapoint with
    | r :: resource, d :: datapoint =>
      if r.key < d.key then
        preparedResourceLabel r ::
          mergePreparedLabels metricName resource (d :: datapoint) metricPending
      else if r.key = d.key then
        preparedDatapointLabel d :: mergePreparedLabels metricName resource datapoint metricPending
      else
        preparedDatapointLabel d ::
          mergePreparedLabels metricName (r :: resource) datapoint metricPending
    | r :: resource, [] =>
      preparedResourceLabel r :: mergePreparedLabels metricName resource [] metricPending
    | [], d :: datapoint =>
      preparedDatapointLabel d :: mergePreparedLabels metricName [] datapoint metricPending
    | [], [] => []
termination_by resource.length + datapoint.length + metricPending.toNat
decreasing_by all_goals simp_all <;> omega

def PreparedCanonicalLabel.pair (label : PreparedCanonicalLabel) : String × String :=
  (label.key, label.value.asStr resourceValues datapointValues)

theorem PreparedCanonicalLabel.pair_fst (label : PreparedCanonicalLabel) :
    (label.pair resourceValues datapointValues).1 = label.key := rfl

def buildPreparedCanonicalLabelset (resource : PreparedOtlpResourceLabels) (metricName : String)
    (datapointAttrs : OtlpKeyValues) : BuiltLabelSet :=
  let out := pushKvs formatDouble ⟨[], [], 0⟩ datapointAttrs 2
  let merged :=
    mergePreparedLabels metricName resource.labels (sortAndDedupLabels out.labels) true
  ⟨merged.map (PreparedCanonicalLabel.pair resource.scratchValues out.scratchValues),
    min (resource.skippedNonScalar + min out.skipped (counterMax 64)) (counterMax 64)⟩

end

section
variable (formatDouble : F64 → String)

def AnyValue.scalarText : AnyValue → Option String
  | .stringValue value => some value
  | .boolValue value => some (toString value)
  | .intValue value => some (toString value.toInt)
  | .doubleValue value => some (formatDouble value)
  | .bytesValue | .arrayValue | .kvlistValue | .stringValueStrindex => none

variable (kv : OtlpKeyValue)

def OtlpKeyValue.content : Option AnyValue :=
  if kv.key = "" ∨ kv.key = metricNameLabel then none else kv.value.bind id

def OtlpKeyValue.label : Option (String × String) :=
  kv.content.bind fun value => (value.scalarText formatDouble).map (kv.key, ·)

def OtlpKeyValue.isSkipped : Bool :=
  kv.content.any fun value => (value.scalarText formatDouble).isNone

def lastLabel (kvs : List OtlpKeyValue) (key : String) : Option (String × String) :=
  KeepLast.last? Prod.fst key (kvs.filterMap (OtlpKeyValue.label formatDouble))

end

def TmpLabel.Precedes : Prop :=
  a.key ≠ b.key ∨ a.rank < b.rank ∨ (a.rank = b.rank ∧ a.ordinal ≤ b.ordinal)

structure Collected (rank : Nat) (out : PushedKvs) (pairs : List (String × String)) : Prop where
  resolved : out.labels.map (TmpLabel.pair out.scratchValues) = pairs
  placed : ∀ l ∈ out.labels, ∀ i, l.value = .scratch i → i < out.scratchValues.length
  bounded : ∀ l ∈ out.labels,
    l.key = metricNameLabel ∨ (l.rank ≤ rank ∧ l.ordinal < out.labels.length)
  ordered : out.labels.Pairwise TmpLabel.Precedes

variable {rank : Nat} {out : PushedKvs} {pairs : List (String × String)}

theorem Collected.mono {rank' : Nat} (h : Collected rank out pairs) (hle : rank ≤ rank') :
    Collected rank' out pairs := by
  refine ⟨h.resolved, h.placed, fun l hl => ?_, h.ordered⟩
  rcases h.bounded l hl with hkey | ⟨hrank, hordinal⟩
  · exact .inl hkey
  · exact .inr ⟨hrank.trans hle, hordinal⟩

open TmpLabel KeepLast List

theorem Collected.push (h : Collected rank out pairs) {key text : String}
    (hkey : key ≠ metricNameLabel) {value : TmpValue} {more : List String}
    (hvalue : value.asStr (out.scratchValues ++ more) = text)
    (hplace : ∀ i, value = .scratch i → i < (out.scratchValues ++ more).length) :
    Collected rank { out with
      labels := out.labels ++ [⟨key, value, rank, out.labels.length⟩]
      scratchValues := out.scratchValues ++ more } (pairs ++ [(key, text)]) := by
  refine ⟨?_, ?_, ?_, ?_⟩
  · have hold : out.labels.map (pair (out.scratchValues ++ more)) = pairs := by
      rw [← h.resolved]
      apply map_congr_left
      intro l hl
      cases hvalue : l.value with
      | borrowed _ => simp [pair, TmpValue.asStr, hvalue]
      | scratch i =>
        have hi := h.placed l hl i hvalue
        simp [pair, TmpValue.asStr, hvalue, getElem?_append_left hi]
    rw [map_append, hold, map_singleton]
    exact congrArg (fun text => pairs ++ [(key, text)]) hvalue
  · refine forall_mem_append.mpr ⟨fun l hl i hi => ?_, forall_mem_singleton.mpr hplace⟩
    rw [length_append]
    exact Nat.lt_add_right _ (h.placed l hl i hi)
  · rw [length_append, length_singleton]
    refine forall_mem_append.mpr ⟨fun l hl => ?_,
      forall_mem_singleton.mpr (.inr ⟨le_rfl, Nat.lt_succ_self _⟩)⟩
    exact (h.bounded l hl).imp_right fun ⟨hrank, hordinal⟩ =>
      ⟨hrank, Nat.lt_succ_of_lt hordinal⟩
  refine pairwise_append.mpr ⟨h.ordered, pairwise_singleton .., ?_⟩
  intro l hl l' hl'
  rw [mem_singleton.mp hl']
  rcases h.bounded l hl with hmetric | ⟨hrank, hordinal⟩
  · exact .inl fun heq => hkey (heq.symm.trans hmetric)
  · rcases Nat.lt_or_eq_of_le hrank with hlt | heq
    · exact .inr (.inl hlt)
    · exact .inr (.inr ⟨heq, le_of_lt hordinal⟩)

section
variable (formatDouble : F64 → String)

theorem pushKv_collected (h : Collected rank out pairs) (kv : OtlpKeyValue) :
    Collected rank (pushKv formatDouble rank out kv)
        (pairs ++ (kv.label formatDouble).toList) ∧
      (pushKv formatDouble rank out kv).skipped =
        out.skipped + (kv.isSkipped formatDouble).toNat := by
  unfold pushKv OtlpKeyValue.label OtlpKeyValue.isSkipped OtlpKeyValue.content
  split
  · exact ⟨by simpa using h, rfl⟩
  rename_i hkey
  rw [not_or] at hkey
  cases kv.value.bind id with
  | none => exact ⟨by simpa using h, rfl⟩
  | some value =>
    have hformat : ∀ text : String, Collected rank { out with
        labels := out.labels ++ [⟨kv.key, .scratch out.scratchValues.length, rank,
          out.labels.length⟩]
        scratchValues := out.scratchValues ++ [text] } (pairs ++ [(kv.key, text)]) := by
      intro text
      refine h.push hkey.2 (by simp [TmpValue.asStr]) fun i hi => ?_
      rw [← TmpValue.scratch.inj hi, length_append]
      exact Nat.lt_succ_self _
    cases value with
    | stringValue text =>
      have hpush := @Collected.push rank out pairs h kv.key text hkey.2 (.borrowed text) [] rfl
        (fun i hi => by cases hi)
      rw [append_nil] at hpush
      exact ⟨hpush, rfl⟩
    | boolValue value => exact ⟨hformat _, rfl⟩
    | intValue value => exact ⟨hformat _, rfl⟩
    | doubleValue value => exact ⟨hformat _, rfl⟩
    | bytesValue | arrayValue | kvlistValue | stringValueStrindex =>
      have hsame : Collected rank { out with skipped := out.skipped + 1 } pairs :=
        ⟨h.resolved, h.placed, h.bounded, h.ordered⟩
      rw [← append_nil pairs] at hsame
      exact ⟨hsame, rfl⟩

theorem pushKvs_collected (kvs : List OtlpKeyValue) (h : Collected rank out pairs) :
    Collected rank (pushKvs formatDouble out kvs rank)
        (pairs ++ kvs.filterMap (OtlpKeyValue.label formatDouble)) ∧
      (pushKvs formatDouble out kvs rank).skipped =
        out.skipped + kvs.countP (OtlpKeyValue.isSkipped formatDouble) := by
  induction kvs generalizing out pairs with
  | nil => exact ⟨by simpa [pushKvs] using h, rfl⟩
  | cons kv kvs ih =>
    obtain ⟨hkv, hskipped⟩ := pushKv_collected formatDouble h kv
    obtain ⟨hrest, hskippedRest⟩ := ih hkv
    refine ⟨?_, ?_⟩
    · cases hlabel : kv.label formatDouble with
      | none => simpa [pushKvs, hlabel] using hrest
      | some label => simpa [pushKvs, hlabel] using hrest
    · change (pushKvs formatDouble (pushKv formatDouble rank out kv) kvs rank).skipped = _
      rw [hskippedRest, hskipped, countP_cons]
      cases kv.isSkipped formatDouble <;> simp [Nat.add_assoc, Nat.add_comm]

end

theorem TmpLabel.le_trans (a b c : TmpLabel) (hab : a.le b) (hbc : b.le c) : a.le c := by
  simp only [le, Bool.or_eq_true, Bool.and_eq_true, decide_eq_true_eq, beq_iff_eq]
    at hab hbc ⊢
  rcases hab with hab | ⟨hab, hrank⟩
  · rcases hbc with hbc | ⟨hbc, _⟩
    · exact .inl (hab.trans hbc)
    · exact .inl (hbc ▸ hab)
  · rcases hbc with hbc | ⟨hbc, hrank'⟩
    · exact .inl (hab ▸ hbc)
    · exact .inr ⟨hab.trans hbc, by omega⟩

theorem TmpLabel.le_total : a.le b || b.le a := by
  simp only [le, Bool.or_eq_true, Bool.and_eq_true, decide_eq_true_eq, beq_iff_eq]
  rcases lt_trichotomy a.key b.key with hlt | heq | hgt
  · exact .inl (.inl hlt)
  · rcases Nat.lt_trichotomy a.rank b.rank with hrank | hrank | hrank
    · exact .inl (.inr ⟨heq, .inl hrank⟩)
    · rcases Nat.le_total a.ordinal b.ordinal with hordinal | hordinal
      · exact .inl (.inr ⟨heq, .inr ⟨hrank, hordinal⟩⟩)
      · exact .inr (.inr ⟨heq.symm, .inr ⟨hrank.symm, hordinal⟩⟩)
    · exact .inr (.inr ⟨heq.symm, .inl hrank⟩)
  · exact .inr (.inl hgt)

theorem TmpLabel.key_le_of_le (h : a.le b) : a.key ≤ b.key := by
  simp only [le, Bool.or_eq_true, Bool.and_eq_true, decide_eq_true_eq, beq_iff_eq] at h
  rcases h with hlt | ⟨heq, _⟩
  · exact le_of_lt hlt
  · exact heq.le

theorem TmpLabel.Precedes.le {a b : TmpLabel} (h : a.Precedes b) (hkey : a.key = b.key) :
    a.le b := by
  rcases h with hne | hrank
  · exact absurd hkey hne
  · simpa [TmpLabel.le, hkey] using hrank

theorem sortAndDedupLabels_increasing {labels : List TmpLabel}
    (h : labels.Pairwise TmpLabel.Precedes) :
    KeepLast.Increasing TmpLabel.key (sortAndDedupLabels labels) ∧
      ∀ key, KeepLast.last? TmpLabel.key key (sortAndDedupLabels labels) =
        KeepLast.last? TmpLabel.key key labels := by
  apply keepLast_mergeSort le_trans le_total key_le_of_le
  intro key
  refine (h.filter fun l => decide (l.key = key)).imp_of_mem fun {a b} ha hb hab => hab.le ?_
  have ha := (mem_filter.mp ha).2
  have hb := (mem_filter.mp hb).2
  rw [decide_eq_true_eq] at ha hb
  exact ha.trans hb.symm

theorem Collected.sorted (h : Collected rank out pairs) :
    let sorted := (sortAndDedupLabels out.labels).map (TmpLabel.pair out.scratchValues)
    KeepLast.Increasing Prod.fst sorted ∧
      ∀ pair, pair ∈ sorted ↔ KeepLast.last? Prod.fst pair.1 pairs = some pair := by
  obtain ⟨hincreasing, hlast⟩ := sortAndDedupLabels_increasing h.ordered
  have hsorted : KeepLast.Increasing Prod.fst
      ((sortAndDedupLabels out.labels).map (pair out.scratchValues)) :=
    hincreasing.map (pair_fst _)
  refine ⟨hsorted, fun pair => ?_⟩
  rw [hsorted.mem_iff, ← h.resolved, last?_map (pair_fst _), hlast, last?_map (pair_fst _)]

/-- What the merge starts from: sorted labels without duplicates, none of them the metric name. -/
structure Mergeable (resource datapoint : List TmpLabel) : Prop where
  resource_sorted : KeepLast.Increasing TmpLabel.key resource
  datapoint_sorted : KeepLast.Increasing TmpLabel.key datapoint
  resource_ne : ∀ r ∈ resource, r.key ≠ metricNameLabel
  datapoint_ne : ∀ d ∈ datapoint, d.key ≠ metricNameLabel

variable {resource datapoint : List TmpLabel}

theorem Mergeable.tail_resource {r : TmpLabel}
    (h : Mergeable (r :: resource) datapoint) : Mergeable resource datapoint :=
  ⟨h.resource_sorted.tail, h.datapoint_sorted, fun r hr => h.resource_ne r (mem_cons_of_mem _ hr),
    h.datapoint_ne⟩

theorem Mergeable.tail_datapoint {d : TmpLabel}
    (h : Mergeable resource (d :: datapoint)) : Mergeable resource datapoint :=
  ⟨h.resource_sorted, h.datapoint_sorted.tail, h.resource_ne,
    fun d hd => h.datapoint_ne d (mem_cons_of_mem _ hd)⟩

/-- A datapoint label, or a resource label that no datapoint label overrides. -/
def Merged (resource datapoint : List TmpLabel) (x : PreparedCanonicalLabel) : Prop :=
  (∃ d ∈ datapoint, x = preparedDatapointLabel d) ∨
    ∃ r ∈ resource, (∀ d ∈ datapoint, d.key ≠ r.key) ∧ x = preparedResourceLabel r

variable {metricPending : Bool} {metricName : String}

theorem mem_mergePreparedLabels (h : Mergeable resource datapoint) (x : PreparedCanonicalLabel) :
    x ∈ mergePreparedLabels metricName resource datapoint metricPending ↔
      (metricPending ∧ x = ⟨metricNameLabel, .borrowed metricName⟩) ∨
        Merged resource datapoint x := by
  fun_induction mergePreparedLabels metricName resource datapoint metricPending with
  | case1 resource datapoint metricPending hinsert ih =>
    rw [mem_cons, ih h]
    simp [hinsert.1]
  | case2 metricPending r resource d datapoint hlt hinsert ih =>
    rw [mem_cons, ih h.tail_resource]
    have hr : ∀ d' ∈ d :: datapoint, d'.key ≠ r.key := forall_mem_cons.mpr ⟨ne_of_gt hlt,
      fun d' hd' => ne_of_gt (hlt.trans ((pairwise_cons.mp h.datapoint_sorted).1 d' hd'))⟩
    simp only [Merged, exists_mem_cons_iff]
    grind
  | case3 metricPending r resource d datapoint hlt heq hinsert ih =>
    rw [mem_cons, ih h.tail_resource.tail_datapoint]
    have hd : ∀ r' ∈ resource, d.key ≠ r'.key := fun r' hr' =>
      heq ▸ ne_of_lt ((pairwise_cons.mp h.resource_sorted).1 r' hr')
    simp only [Merged, exists_mem_cons_iff, forall_mem_cons]
    grind
  | case4 metricPending r resource d datapoint hlt hne hinsert ih =>
    rw [mem_cons, ih h.tail_datapoint]
    have hdr : d.key < r.key := lt_of_le_of_ne (not_lt.mp hlt) (Ne.symm hne)
    have hd : ∀ r' ∈ r :: resource, d.key ≠ r'.key := forall_mem_cons.mpr ⟨ne_of_lt hdr,
      fun r' hr' => ne_of_lt (hdr.trans ((pairwise_cons.mp h.resource_sorted).1 r' hr'))⟩
    simp only [Merged, exists_mem_cons_iff, forall_mem_cons] at hd ⊢
    grind
  | case5 metricPending r resource hinsert ih =>
    rw [mem_cons, ih h.tail_resource]
    simp only [Merged, exists_mem_cons_iff]
    grind
  | case6 metricPending d datapoint hinsert ih =>
    rw [mem_cons, ih h.tail_datapoint]
    simp only [Merged, exists_mem_cons_iff]
    grind
  | case7 metricPending hinsert =>
    cases metricPending with
    | true => exact absurd ⟨rfl, rfl⟩ hinsert
    | false => simp [Merged]

theorem key_lt_metricNameLabel {next : Option String} {key : String}
    (hinsert : ¬(metricPending ∧ next.all (metricNameLabel < ·))) (hnext : next = some key)
    (hne : key ≠ metricNameLabel) (hpending : metricPending) : key < metricNameLabel := by
  rw [hnext, Option.all_some, decide_eq_true_eq, not_and, not_lt] at hinsert
  exact lt_of_le_of_ne (hinsert hpending) hne

theorem Merged.le_key {x : PreparedCanonicalLabel}
    (h : Mergeable resource datapoint) (hx : Merged resource datapoint x) :
    ∃ key, nextAttributeKey resource datapoint = some key ∧ key ≤ x.key := by
  have hhead : ∀ {l : TmpLabel} {ls : List TmpLabel},
      KeepLast.Increasing key (l :: ls) → ∀ l' ∈ l :: ls, l.key ≤ l'.key := fun hl =>
    forall_mem_cons.mpr ⟨le_rfl, fun l' hl' => ((pairwise_cons.mp hl).1 l' hl').le⟩
  rcases hx with ⟨l, hl, rfl⟩ | ⟨l, hl, _, rfl⟩
  · cases datapoint with
    | nil => cases hl
    | cons d datapoint =>
      cases resource with
      | nil => exact ⟨_, rfl, hhead h.datapoint_sorted l hl⟩
      | cons r resource =>
        exact ⟨_, rfl, (min_le_right ..).trans (hhead h.datapoint_sorted l hl)⟩
  cases resource with
  | nil => cases hl
  | cons r resource =>
    cases datapoint with
    | nil => exact ⟨_, rfl, hhead h.resource_sorted l hl⟩
    | cons d datapoint =>
      exact ⟨_, rfl, (min_le_left ..).trans (hhead h.resource_sorted l hl)⟩

theorem increasing_cons_merge {label : PreparedCanonicalLabel} (h : Mergeable resource datapoint)
    (hmetric : metricPending → label.key < metricNameLabel)
    (hresource : ∀ r ∈ resource, label.key < r.key)
    (hdatapoint : ∀ d ∈ datapoint, label.key < d.key)
    (htail : KeepLast.Increasing PreparedCanonicalLabel.key
      (mergePreparedLabels metricName resource datapoint metricPending)) :
    KeepLast.Increasing PreparedCanonicalLabel.key
      (label :: mergePreparedLabels metricName resource datapoint metricPending) := by
  refine pairwise_cons.mpr ⟨fun x hx => ?_, htail⟩
  rcases (mem_mergePreparedLabels h x).mp hx with ⟨hpending, rfl⟩ | ⟨d, hd, rfl⟩ | ⟨r, hr, _, rfl⟩
  · exact hmetric hpending
  · exact hdatapoint d hd
  · exact hresource r hr

theorem mergePreparedLabels_increasing (h : Mergeable resource datapoint) :
    KeepLast.Increasing PreparedCanonicalLabel.key
      (mergePreparedLabels metricName resource datapoint metricPending) := by
  fun_induction mergePreparedLabels metricName resource datapoint metricPending with
  | case1 resource datapoint metricPending hinsert ih =>
    refine pairwise_cons.mpr ⟨fun x hx => ?_, ih h⟩
    rcases (mem_mergePreparedLabels h x).mp hx with ⟨hpending, _⟩ | hmerged
    · cases hpending
    · obtain ⟨key, hnext, hle⟩ := hmerged.le_key h
      rw [hnext, Option.all_some, decide_eq_true_eq] at hinsert
      exact lt_of_lt_of_le hinsert.2 hle
  | case2 metricPending r resource d datapoint hlt hinsert ih =>
    have hd := (pairwise_cons.mp h.datapoint_sorted).1
    refine increasing_cons_merge h.tail_resource ?_ (pairwise_cons.mp h.resource_sorted).1
      (forall_mem_cons.mpr ⟨hlt, fun d' hd' => hlt.trans (hd d' hd')⟩) (ih h.tail_resource)
    exact key_lt_metricNameLabel hinsert (congrArg some (min_eq_left hlt.le))
      (h.resource_ne r (mem_cons_self ..))
  | case3 metricPending r resource d datapoint hlt heq hinsert ih =>
    have hr := (pairwise_cons.mp h.resource_sorted).1
    refine increasing_cons_merge h.tail_resource.tail_datapoint ?_
      (fun r' hr' => heq.symm.trans_lt (hr r' hr')) (pairwise_cons.mp h.datapoint_sorted).1 (ih h.tail_resource.tail_datapoint)
    exact key_lt_metricNameLabel hinsert (congrArg some (min_eq_right heq.ge))
      (h.datapoint_ne d (mem_cons_self ..))
  | case4 metricPending r resource d datapoint hlt hne hinsert ih =>
    have hdr : d.key < r.key := lt_of_le_of_ne (not_lt.mp hlt) (Ne.symm hne)
    have hr := (pairwise_cons.mp h.resource_sorted).1
    refine increasing_cons_merge h.tail_datapoint ?_
      (forall_mem_cons.mpr ⟨hdr, fun r' hr' => hdr.trans (hr r' hr')⟩)
      (pairwise_cons.mp h.datapoint_sorted).1 (ih h.tail_datapoint)
    exact key_lt_metricNameLabel hinsert (congrArg some (min_eq_right hdr.le))
      (h.datapoint_ne d (mem_cons_self ..))
  | case5 metricPending r resource hinsert ih =>
    refine increasing_cons_merge h.tail_resource ?_ (pairwise_cons.mp h.resource_sorted).1
      (fun d hd => absurd hd not_mem_nil) (ih h.tail_resource)
    exact key_lt_metricNameLabel hinsert rfl (h.resource_ne r (mem_cons_self ..))
  | case6 metricPending d datapoint hinsert ih =>
    refine increasing_cons_merge h.tail_datapoint ?_ (fun r hr => absurd hr not_mem_nil)
      (pairwise_cons.mp h.datapoint_sorted).1 (ih h.tail_datapoint)
    exact key_lt_metricNameLabel hinsert rfl (h.datapoint_ne d (mem_cons_self ..))
  | case7 metricPending hinsert => exact List.Pairwise.nil

section
variable (formatDouble : F64 → String)

theorem label_ne_metricNameLabel {kvs : List OtlpKeyValue} {pair : String × String}
    (h : pair ∈ kvs.filterMap (OtlpKeyValue.label formatDouble)) : pair.1 ≠ metricNameLabel := by
  obtain ⟨kv, -, hlabel⟩ := mem_filterMap.mp h
  unfold OtlpKeyValue.label OtlpKeyValue.content at hlabel
  split at hlabel
  · cases hlabel
  rename_i hkey
  rw [not_or] at hkey
  obtain ⟨value, -, hvalue⟩ := Option.bind_eq_some_iff.mp hlabel
  obtain ⟨text, -, rfl⟩ := Option.map_eq_some_iff.mp hvalue
  exact hkey.2

theorem lastLabel_metricNameLabel (kvs : List OtlpKeyValue) :
    lastLabel formatDouble kvs metricNameLabel = none :=
  last?_eq_none fun _ hpair => label_ne_metricNameLabel formatDouble hpair

/-- What a label set has to contain: the metric name, and the last label of every other key, a
datapoint label before a resource label. -/
def IsLabelOf (resourceAttrs datapointAttrs : List OtlpKeyValue) (metricName : String)
    (pair : String × String) : Prop :=
  pair = (metricNameLabel, metricName) ∨
    (lastLabel formatDouble datapointAttrs pair.1).or
      (lastLabel formatDouble resourceAttrs pair.1) = some pair

variable (resourceAttrs : OtlpKeyValues)

theorem buildCanonicalLabelset_labels (metricName : String) (datapointAttrs : OtlpKeyValues) :
    let built := buildCanonicalLabelset formatDouble resourceAttrs metricName datapointAttrs
    KeepLast.Increasing Prod.fst built.labels ∧
      (∀ pair, pair ∈ built.labels ↔
        IsLabelOf formatDouble resourceAttrs datapointAttrs metricName pair) ∧
      built.skippedNonScalar = resourceAttrs.1.countP (OtlpKeyValue.isSkipped formatDouble) +
        datapointAttrs.1.countP (OtlpKeyValue.isSkipped formatDouble) := by
  have hmetric : Collected 0 ⟨[⟨metricNameLabel, .borrowed metricName, 3, 0⟩], [], 0⟩
      [(metricNameLabel, metricName)] :=
    ⟨rfl, by simp, by simp, pairwise_singleton ..⟩
  obtain ⟨hresource, hskippedResource⟩ := pushKvs_collected formatDouble resourceAttrs.1 hmetric
  obtain ⟨hdatapoint, hskippedDatapoint⟩ :=
    pushKvs_collected formatDouble datapointAttrs.1 (hresource.mono (Nat.zero_le 2))
  obtain ⟨hincreasing, hmem⟩ := hdatapoint.sorted
  refine ⟨hincreasing, fun pair => ?_, ?_⟩
  · refine (hmem pair).trans ?_
    rw [last?_append, last?_append]
    change (lastLabel formatDouble datapointAttrs.1 pair.1).or
      ((lastLabel formatDouble resourceAttrs.1 pair.1).or _) = _ ↔ _
    by_cases hkey : pair.1 = metricNameLabel
    · rw [IsLabelOf, hkey, lastLabel_metricNameLabel, lastLabel_metricNameLabel]
      simp [last?, eq_comm]
    · rw [last?_cons_of_ne (Ne.symm hkey), last?_nil, Option.or_none]
      refine (or_iff_right fun heq => hkey ?_).symm
      rw [heq]
  · exact hskippedDatapoint.trans (by rw [hskippedResource, Nat.zero_add])

structure Prepared (kvs : List OtlpKeyValue) (labels : List TmpLabel)
    (scratchValues : List String) : Prop where
  increasing : KeepLast.Increasing TmpLabel.key labels
  key_ne : ∀ l ∈ labels, l.key ≠ metricNameLabel
  mem_pairs : ∀ pair, pair ∈ labels.map (TmpLabel.pair scratchValues) ↔
    lastLabel formatDouble kvs pair.1 = some pair

theorem pushKvs_prepared (kvs : List OtlpKeyValue) (rank : Nat) :
    let out := pushKvs formatDouble ⟨[], [], 0⟩ kvs rank
    Prepared formatDouble kvs (sortAndDedupLabels out.labels) out.scratchValues ∧
      out.skipped = kvs.countP (OtlpKeyValue.isSkipped formatDouble) := by
  have hempty : Collected rank ⟨[], [], 0⟩ [] :=
    ⟨rfl, by simp, by simp, List.Pairwise.nil⟩
  obtain ⟨hcollected, hskipped⟩ := pushKvs_collected formatDouble kvs hempty
  obtain ⟨-, hmem⟩ := hcollected.sorted
  refine ⟨⟨(sortAndDedupLabels_increasing hcollected.ordered).1, fun l hl => ?_, hmem⟩,
    hskipped.trans (Nat.zero_add _)⟩
  have hpair := (hmem _).mp (mem_map_of_mem hl)
  exact label_ne_metricNameLabel formatDouble (last?_mem hpair).1

variable {formatDouble} in
theorem Prepared.lastLabel_eq_none_iff {kvs : List OtlpKeyValue} {labels : List TmpLabel}
    {scratchValues : List String} (h : Prepared formatDouble kvs labels scratchValues)
    (key : String) : lastLabel formatDouble kvs key = none ↔ ∀ l ∈ labels, l.key ≠ key := by
  constructor
  · rintro hnone l hl rfl
    have hsome := (h.mem_pairs _).mp (mem_map_of_mem hl)
    rw [pair_fst, hnone] at hsome
    cases hsome
  intro hne
  refine Option.eq_none_iff_forall_ne_some.mpr fun pair hlast => ?_
  have hkey := (last?_mem hlast).2
  obtain ⟨l, hl, rfl⟩ := mem_map.mp ((h.mem_pairs pair).mpr (hkey ▸ hlast))
  exact hne l hl hkey

variable {formatDouble} in
theorem mem_merge_prepared {resourceAttrs datapointAttrs : List OtlpKeyValue}
    {resourceValues datapointValues : List String}
    (hr : Prepared formatDouble resourceAttrs resource resourceValues)
    (hd : Prepared formatDouble datapointAttrs datapoint datapointValues)
    (metricName : String) (pair : String × String) :
    pair ∈ (mergePreparedLabels metricName resource datapoint true).map
        (PreparedCanonicalLabel.pair resourceValues datapointValues) ↔
      IsLabelOf formatDouble resourceAttrs datapointAttrs metricName pair := by
  have hdpair : ∀ l : TmpLabel, (preparedDatapointLabel l).pair resourceValues datapointValues =
      l.pair datapointValues := by
    rintro ⟨_, _ | _, _, _⟩ <;> rfl
  have hrpair : ∀ l : TmpLabel, (preparedResourceLabel l).pair resourceValues datapointValues =
      l.pair resourceValues := by
    rintro ⟨_, _ | _, _, _⟩ <;> rfl
  have hmergeable : Mergeable resource datapoint :=
    ⟨hr.increasing, hd.increasing, hr.key_ne, hd.key_ne⟩
  rw [IsLabelOf, Option.or_eq_some_iff, ← hd.mem_pairs, ← hr.mem_pairs, hd.lastLabel_eq_none_iff]
  simp only [mem_map, mem_mergePreparedLabels hmergeable, Merged]
  constructor
  · rintro ⟨x, ⟨-, rfl⟩ | ⟨d, hmem, rfl⟩ | ⟨r, hmem, hne, rfl⟩, rfl⟩
    · exact .inl rfl
    · exact .inr (.inl ⟨d, hmem, (hdpair d).symm⟩)
    · exact .inr (.inr ⟨hne, r, hmem, (hrpair r).symm⟩)
  rintro (rfl | ⟨d, hmem, rfl⟩ | ⟨hne, r, hmem, rfl⟩)
  · exact ⟨_, .inl ⟨trivial, rfl⟩, rfl⟩
  · exact ⟨_, .inr (.inl ⟨d, hmem, rfl⟩), hdpair d⟩
  · exact ⟨_, .inr (.inr ⟨r, hmem, hne, rfl⟩), hrpair r⟩

theorem buildPreparedCanonicalLabelset_eq (metricName : String) (datapointAttrs : OtlpKeyValues) :
    buildPreparedCanonicalLabelset formatDouble
        (PreparedOtlpResourceLabels.new formatDouble resourceAttrs) metricName datapointAttrs =
      buildCanonicalLabelset formatDouble resourceAttrs metricName datapointAttrs := by
  obtain ⟨hincreasing, hmem, hskipped⟩ :=
    buildCanonicalLabelset_labels formatDouble resourceAttrs metricName datapointAttrs
  obtain ⟨hr, hskippedResource⟩ := pushKvs_prepared formatDouble resourceAttrs.1 0
  obtain ⟨hd, hskippedDatapoint⟩ := pushKvs_prepared formatDouble datapointAttrs.1 2
  have hmerged : KeepLast.Increasing PreparedCanonicalLabel.key (mergePreparedLabels metricName
      (sortAndDedupLabels (pushKvs formatDouble ⟨[], [], 0⟩ resourceAttrs.1 0).labels)
      (sortAndDedupLabels (pushKvs formatDouble ⟨[], [], 0⟩ datapointAttrs.1 2).labels) true) :=
    mergePreparedLabels_increasing ⟨hr.increasing, hd.increasing, hr.key_ne, hd.key_ne⟩
  have hlabels := (hmerged.map (PreparedCanonicalLabel.pair_fst _ _)).ext_mem hincreasing
    fun pair => (mem_merge_prepared hr hd metricName pair).trans (hmem pair).symm
  -- neither count saturates: a list has at most `isize::MAX` attributes
  have hcount : resourceAttrs.1.countP (OtlpKeyValue.isSkipped formatDouble) +
      datapointAttrs.1.countP (OtlpKeyValue.isSkipped formatDouble) ≤ counterMax 64 := by
    have hresource := countP_le_length (p := OtlpKeyValue.isSkipped formatDouble)
      (l := resourceAttrs.1)
    have hdatapoint := countP_le_length (p := OtlpKeyValue.isSkipped formatDouble)
      (l := datapointAttrs.1)
    have := resourceAttrs.2
    have := datapointAttrs.2
    simp only [isizeMax, counterMax] at *
    omega
  refine congrArg₂ BuiltLabelSet.mk hlabels (Eq.trans ?_ hskipped.symm)
  change min (min (pushKvs ..).skipped _ + min (pushKvs ..).skipped _) _ = _
  omega

/-- The labels built for a datapoint: keys increase, the metric name is there once, and the value
of any other key is the last of the datapoint or else the last of the resource. -/
theorem prepared_labelset_is_canonical (metricName : String) (datapointAttrs : OtlpKeyValues) :
    let built := buildPreparedCanonicalLabelset formatDouble
      (PreparedOtlpResourceLabels.new formatDouble resourceAttrs) metricName datapointAttrs
    built = buildCanonicalLabelset formatDouble resourceAttrs metricName datapointAttrs ∧
      KeepLast.Increasing Prod.fst built.labels ∧
      built.labels.filter (fun pair => pair.1 = metricNameLabel) =
        [(metricNameLabel, metricName)] ∧
      ∀ key value, key ≠ metricNameLabel →
        ((key, value) ∈ built.labels ↔
          (lastLabel formatDouble datapointAttrs.1 key).or
            (lastLabel formatDouble resourceAttrs.1 key) = some (key, value)) := by
  obtain ⟨hincreasing, hmem, -⟩ :=
    buildCanonicalLabelset_labels formatDouble resourceAttrs metricName datapointAttrs
  rw [buildPreparedCanonicalLabelset_eq]
  refine ⟨rfl, hincreasing, ?_, fun key value hkey => ?_⟩
  · refine KeepLast.Increasing.ext_mem (List.Pairwise.filter _ hincreasing)
      (pairwise_singleton ..) fun pair => ?_
    rw [mem_filter, hmem, IsLabelOf, decide_eq_true_eq, mem_singleton]
    constructor
    · rintro ⟨heq | hlast, hkey⟩
      · exact heq
      · rw [hkey, lastLabel_metricNameLabel, lastLabel_metricNameLabel] at hlast
        cases hlast
    · rintro rfl
      exact ⟨.inl rfl, rfl⟩
  · refine (hmem _).trans (or_iff_right fun heq => hkey ?_)
    exact (Prod.ext_iff.mp heq).1

end

end Chronoxide
