import Chronoxide.Encoding.Utf8
import Mathlib.Data.String.Basic

/-! PromQL names (`promql/normalize.rs`). Characters a name may not have are replaced, a reserved
label name gets a prefix, and a name that was changed ends in the hash of the original one. -/

namespace Chronoxide
open List

def metricNameLabel : String := "__name__"

def hex016 (n : UInt64) : List Char :=
  (List.range 16).map fun i => Nat.digitChar (n.toNat / 16 ^ (15 - i) % 16)

variable (ch : Char)

def isMetricFirst : Bool := ch.isAlpha || ch == '_' || ch == ':'

def isMetricRest : Bool := ch.isAlphanum || ch == '_' || ch == ':'

def isLabelFirst : Bool := ch.isAlpha || ch == '_'

def isLabelRest : Bool := ch.isAlphanum || ch == '_'

/-- The characters a name may have, and whether names that start with `__` are reserved. -/
structure NameRules where
  firstOk : Char → Bool
  restOk : Char → Bool
  labelRules : Bool

def metricNameRules : NameRules := ⟨isMetricFirst, isMetricRest, false⟩

def labelNameRules : NameRules := ⟨isLabelFirst, isLabelRest, true⟩

namespace NameRules

variable (rules : NameRules)

def replaceChars (original : List Char) : List Char :=
  original.map fun ch => if rules.restOk ch then ch else '_'

def startName : List Char → List Char
  | [] => ['_']
  | first :: rest => if rules.firstOk first then first :: rest else '_' :: first :: rest

def isReserved (out : List Char) : Bool :=
  rules.labelRules && (out == metricNameLabel.toList || "__".toList.isPrefixOf out)

def prefixReserved (out : List Char) : List Char :=
  if rules.isReserved out then "otel_".toList ++ out else out

def unhashedName (original : List Char) : List Char :=
  rules.prefixReserved (rules.startName (rules.replaceChars original))

end NameRules

section
variable (xxhash64 : List UInt8 → UInt64) (original : String)

def normalizeName (rules : NameRules) : String :=
  let out := rules.unhashedName original.toList
  if out != original.toList then
    String.ofList (out ++ "_x".toList ++ hex016 (xxhash64 (asBytes original)))
  else
    String.ofList out

def normalizeMetricName : String :=
  normalizeName xxhash64 original metricNameRules

def normalizeLabelName : String :=
  normalizeName xxhash64 original labelNameRules

end

def seriesIdBytes (labels : List (String × String)) : List UInt8 :=
  labels.flatMap fun label => asBytes label.1 ++ [0] ++ asBytes label.2 ++ [0xff]

theorem seriesIdBytes_cons (label : String × String) (labels : List (String × String)) :
    seriesIdBytes (label :: labels) = seriesIdBytes [label] ++ seriesIdBytes labels := by
  simp [seriesIdBytes]

def seriesId (xxhash64 : List UInt8 → UInt64) (labels : List (String × String)) : UInt64 :=
  xxhash64 (seriesIdBytes labels)

namespace NameRules

variable {rules : NameRules}

structure IsName (rules : NameRules) (cs : List Char) : Prop where
  rest : ∀ ch ∈ cs, rules.restOk ch
  first : cs.head?.any rules.firstOk
  not_reserved : rules.isReserved cs = false

/-- What the rules have in common: the characters that normalization itself writes are allowed. -/
structure Lawful (rules : NameRules) : Prop where
  rest_of_first : ∀ ch, rules.firstOk ch → rules.restOk ch
  first_underscore : rules.firstOk '_'
  rest_otel : ∀ ch ∈ "otel_".toList, rules.restOk ch
  first_otel : rules.firstOk 'o'
  rest_x : rules.restOk 'x'
  rest_digit : ∀ n, n < 16 → rules.restOk (Nat.digitChar n)

theorem startName_cons (first : Char) (rest : List Char) :
    rules.startName (first :: rest) =
      if rules.firstOk first then first :: rest else '_' :: first :: rest := rfl

theorem isReserved_iff (cs : List Char) :
    rules.isReserved cs ↔ rules.labelRules ∧ ['_', '_'] <+: cs := by
  rw [isReserved, Bool.and_eq_true, Bool.or_eq_true, isPrefixOf_iff_prefix, beq_iff_eq]
  refine and_congr_right fun _ => or_iff_right_of_imp ?_
  rintro rfl
  exact prefix_append ..

theorem length_le_unhashedName (cs : List Char) : cs.length ≤ (rules.unhashedName cs).length := by
  have hstart : ∀ cs : List Char, cs.length ≤ (rules.startName cs).length := by
    rintro (_ | ⟨first, rest⟩)
    · exact Nat.zero_le _
    rw [startName_cons]
    split
    · exact le_rfl
    · exact Nat.le_succ _
  have hstarts : ∀ cs : List Char, cs.length ≤ (rules.prefixReserved cs).length := by
    intro cs
    unfold prefixReserved
    split
    · exact (length_append ▸ Nat.le_add_left ..)
    · exact le_rfl
  have hreplace : (rules.replaceChars cs).length = cs.length := length_map ..
  exact hreplace ▸ (hstart _).trans (hstarts _)

theorem Lawful.isName_unhashedName (h : rules.Lawful) (cs : List Char) :
    rules.IsName (rules.unhashedName cs) := by
  have hreplace : ∀ ch ∈ rules.replaceChars cs, rules.restOk ch := by
    intro ch hch
    obtain ⟨c, -, rfl⟩ := mem_map.mp hch
    split
    · assumption
    · exact h.rest_of_first _ h.first_underscore
  have hstart : (∀ ch ∈ rules.startName (rules.replaceChars cs), rules.restOk ch) ∧
      (rules.startName (rules.replaceChars cs)).head?.any rules.firstOk := by
    cases hcs : rules.replaceChars cs with
    | nil => simp [startName, h.first_underscore, h.rest_of_first _ h.first_underscore]
    | cons first rest =>
      rw [hcs] at hreplace
      rw [startName_cons]
      split
      · exact ⟨hreplace, by simpa⟩
      · exact ⟨forall_mem_cons.mpr ⟨h.rest_of_first _ h.first_underscore, hreplace⟩,
          h.first_underscore⟩
  unfold unhashedName prefixReserved
  split
  · refine ⟨forall_mem_append.mpr ⟨h.rest_otel, hstart.1⟩, h.first_otel, ?_⟩
    rw [Bool.eq_false_iff, ne_eq, isReserved_iff]
    rintro ⟨-, t, ht⟩
    cases ht
  · rename_i hreserved
    exact ⟨hstart.1, hstart.2, by simpa using hreserved⟩

theorem IsName.unhashedName_eq {cs : List Char} (h : rules.IsName cs) :
    rules.unhashedName cs = cs := by
  have hreplace : rules.replaceChars cs = cs := by
    refine (map_congr_left fun ch hch => ?_).trans (map_id _)
    exact if_pos (h.rest ch hch)
  have hstart : rules.startName cs = cs := by
    cases cs with
    | nil => exact absurd h.first (by simp)
    | cons first rest => exact if_pos (by simpa using h.first)
  rw [unhashedName, hreplace, hstart, prefixReserved, h.not_reserved]
  rfl

theorem Lawful.unhashedName_eq_iff (h : rules.Lawful) (cs : List Char) :
    rules.unhashedName cs = cs ↔ rules.IsName cs :=
  ⟨fun heq => heq ▸ h.isName_unhashedName cs, IsName.unhashedName_eq⟩

/-- A name that is replaced by a single underscore. -/
def collapses (rules : NameRules) (original : String) : Bool :=
  match original.toList with
  | [] => true
  | [ch] => !rules.restOk ch
  | _ => false

theorem eq_underscore_of_prefixReserved {cs : List Char} (h : rules.prefixReserved cs = ['_']) :
    cs = ['_'] := by
  unfold prefixReserved at h
  split at h
  · cases h
  · exact h

theorem Lawful.unhashedName_eq_underscore_iff (h : rules.Lawful) (original : String) :
    rules.unhashedName original.toList = ['_'] ∧ ['_'] ≠ original.toList ↔
      rules.collapses original := by
  have hunreserved : rules.isReserved ['_'] = false := by
    rw [Bool.eq_false_iff, ne_eq, isReserved_iff]
    rintro ⟨-, t, ht⟩
    cases ht
  have hunderscore : rules.unhashedName ['_'] = ['_'] :=
    IsName.unhashedName_eq ⟨by simpa using h.rest_of_first _ h.first_underscore,
      h.first_underscore, hunreserved⟩
  unfold collapses
  split
  · rename_i hempty
    rw [hempty]
    refine iff_of_true ⟨?_, by simp⟩ rfl
    simp only [unhashedName, replaceChars, map_nil, startName, prefixReserved, hunreserved]
    rfl
  · rename_i ch hone
    rw [hone]
    by_cases hrest : rules.restOk ch
    · refine iff_of_false ?_ (by simp [hrest])
      rintro ⟨hout, hne⟩
      have hreplace : rules.replaceChars [ch] = [ch] := by simp [replaceChars, hrest]
      rw [unhashedName, hreplace] at hout
      have hstart := eq_underscore_of_prefixReserved hout
      rw [startName_cons] at hstart
      split at hstart
      · exact hne hstart.symm
      · cases hstart
    refine iff_of_true ⟨?_, ?_⟩ (by simp [hrest])
    · simp [unhashedName, replaceChars, hrest, startName_cons, h.first_underscore,
        prefixReserved, hunreserved]
    · rintro heq
      cases heq
      exact hrest (h.rest_of_first _ h.first_underscore)
  rename_i hnil hone
  refine iff_of_false ?_ (by simp)
  rintro ⟨hout, -⟩
  have hlen := rules.length_le_unhashedName original.toList
  rw [hout, length_singleton] at hlen
  rcases Nat.le_one_iff_eq_zero_or_eq_one.mp hlen with hzero | heq
  · exact hnil (length_eq_zero_iff.mp hzero)
  · obtain ⟨ch, hch⟩ := length_eq_one_iff.mp heq
    exact hone ch hch

theorem Lawful.hex016_rest (h : rules.Lawful) (n : UInt64) : ∀ ch ∈ hex016 n, rules.restOk ch := by
  intro ch hch
  obtain ⟨i, -, rfl⟩ := mem_map.mp hch
  exact h.rest_digit _ (Nat.mod_lt _ (by decide))

theorem Lawful.isName_append_hash_iff (h : rules.Lawful) {cs : List Char} (hcs : rules.IsName cs)
    (n : UInt64) :
    rules.IsName (cs ++ "_x".toList ++ hex016 n) ↔ ¬(rules.labelRules ∧ cs = ['_']) := by
  have hhash : ∀ ch ∈ "_x".toList, rules.restOk ch := by
    simp [h.rest_x, h.rest_of_first _ h.first_underscore]
  have hrest : ∀ ch ∈ cs ++ "_x".toList ++ hex016 n, rules.restOk ch :=
    forall_mem_append.mpr ⟨forall_mem_append.mpr ⟨hcs.rest, hhash⟩, h.hex016_rest n⟩
  have hunreserved := hcs.not_reserved
  rw [Bool.eq_false_iff, ne_eq, isReserved_iff] at hunreserved
  have hfirst : (cs ++ "_x".toList ++ hex016 n).head?.any rules.firstOk := by
    cases cs with
    | nil => exact absurd hcs.first (by simp)
    | cons first rest => exact hcs.first
  have hiff : rules.isReserved (cs ++ "_x".toList ++ hex016 n) ↔
      rules.labelRules ∧ cs = ['_'] := by
    rw [isReserved_iff]
    refine and_congr_right fun hlabel => ?_
    match cs, hcs.first with
    | [first], _ =>
      have hstarts : ['_', '_'] <+: [first] ++ "_x".toList ++ hex016 n ↔ '_' = first := by
        simp [cons_prefix_cons]
      rw [hstarts, singleton_inj, eq_comm]
    | first :: second :: rest, _ =>
      refine iff_of_false (fun hstarts => hunreserved ⟨hlabel, ?_⟩) (by simp)
      simpa [cons_prefix_cons] using hstarts
  rw [← hiff]
  constructor
  · intro hname
    rw [hname.not_reserved]
    exact Bool.false_ne_true
  · intro hnot
    exact ⟨hrest, hfirst, by simpa using hnot⟩

end NameRules

section
variable {rules : NameRules} (xxhash64 : List UInt8 → UInt64)

theorem normalizeName_toList (original : String) :
    (normalizeName xxhash64 original rules).toList =
      if rules.unhashedName original.toList = original.toList then original.toList
      else rules.unhashedName original.toList ++ "_x".toList ++
        hex016 (xxhash64 (asBytes original)) := by
  simp only [normalizeName, bne_iff_ne]
  split
  · rename_i hne
    rw [String.toList_ofList]
  · rename_i heq
    rw [not_not] at heq
    rw [String.toList_ofList, if_pos heq, heq]

theorem normalizeName_eq_self_iff (h : rules.Lawful) (original : String) :
    normalizeName xxhash64 original rules = original ↔ rules.IsName original.toList := by
  rw [← h.unhashedName_eq_iff, ← String.toList_inj, normalizeName_toList]
  split
  · rename_i heq
    exact iff_of_true rfl heq
  rename_i hne
  refine iff_of_false (fun heq => ?_) hne
  -- a name is never shortened, so a hash at its end makes it longer
  have hlen := congrArg length heq
  have hle := rules.length_le_unhashedName original.toList
  have hx : "_x".toList.length = 2 := rfl
  simp only [length_append] at hlen
  omega

/-- Normalization yields a name it leaves alone, except where it makes `__x…` of a key that it
first replaced by an underscore. -/
theorem isName_normalizeName_iff (h : rules.Lawful) (original : String) :
    rules.IsName (normalizeName xxhash64 original rules).toList ↔
      ¬(rules.labelRules ∧ rules.collapses original) := by
  rw [← h.unhashedName_eq_underscore_iff]
  have hname := h.isName_unhashedName original.toList
  rw [normalizeName_toList]
  split
  · rename_i heq
    refine iff_of_true (heq ▸ hname) fun ⟨_, hunderscore, hne⟩ => hne ?_
    exact hunderscore.symm.trans heq
  · rename_i hne
    rw [h.isName_append_hash_iff hname]
    exact not_congr (and_congr_right fun _ => ⟨fun heq => ⟨heq, heq ▸ hne⟩, And.left⟩)

end

theorem metricNameRules_lawful : metricNameRules.Lawful where
  rest_of_first ch h := by
    simp only [metricNameRules, isMetricFirst, isMetricRest, Char.isAlphanum, Bool.or_eq_true]
      at h ⊢
    tauto
  first_underscore := by decide
  rest_otel := all_eq_true.mp (by decide)
  first_otel := by decide
  rest_x := by decide
  rest_digit := by decide

theorem labelNameRules_lawful : labelNameRules.Lawful where
  rest_of_first ch h := by
    simp only [labelNameRules, isLabelFirst, isLabelRest, Char.isAlphanum, Bool.or_eq_true]
      at h ⊢
    tauto
  first_underscore := by decide
  rest_otel := all_eq_true.mp (by decide)
  first_otel := by decide
  rest_x := by decide
  rest_digit := by decide

section
variable (xxhash64 : List UInt8 → UInt64) (original : String)

theorem normalizeMetricName_idempotent :
    normalizeMetricName xxhash64 (normalizeMetricName xxhash64 original) =
      normalizeMetricName xxhash64 original := by
  rw [normalizeMetricName, normalizeName_eq_self_iff xxhash64 metricNameRules_lawful,
    normalizeMetricName, isName_normalizeName_iff xxhash64 metricNameRules_lawful]
  simp [metricNameRules]

theorem normalizeLabelName_idempotent_iff :
    normalizeLabelName xxhash64 (normalizeLabelName xxhash64 original) =
      normalizeLabelName xxhash64 original ↔ ¬labelNameRules.collapses original := by
  rw [normalizeLabelName, normalizeName_eq_self_iff xxhash64 labelNameRules_lawful,
    normalizeLabelName, isName_normalizeName_iff xxhash64 labelNameRules_lawful]
  exact not_congr (and_iff_right rfl)

theorem normalizeLabelName_ne_metricNameLabel :
    normalizeLabelName xxhash64 original ≠ metricNameLabel := by
  intro heq
  have htoList := congrArg String.toList heq
  rw [normalizeLabelName, normalizeName_toList] at htoList
  split at htoList
  · rename_i hself
    have hname := (labelNameRules_lawful.unhashedName_eq_iff _).mp hself
    rw [htoList] at hname
    exact absurd hname.not_reserved (by decide)
  have hlen := congrArg length htoList
  have hmetric : metricNameLabel.toList.length = 8 := by decide
  have hhash : (hex016 (xxhash64 (asBytes original))).length = 16 := by simp [hex016]
  simp only [length_append, hmetric, hhash] at hlen
  omega

theorem normalizeLabelName_rest :
    ∀ ch ∈ (normalizeLabelName xxhash64 original).toList, isLabelRest ch := by
  have hname := labelNameRules_lawful.isName_unhashedName original.toList
  rw [normalizeLabelName, normalizeName_toList]
  split
  · rename_i hself
    exact (hself ▸ hname).rest
  have hx : ∀ ch ∈ "_x".toList, labelNameRules.restOk ch :=
    all_eq_true.mp (by decide)
  exact forall_mem_append.mpr ⟨forall_mem_append.mpr ⟨hname.rest, hx⟩,
    labelNameRules_lawful.hex016_rest _⟩

end

theorem toNat_lt_of_mem_utf8EncodeChar {c : Char} {b : UInt8} (h : b ∈ String.utf8EncodeChar c) :
    b.toNat < 255 ∧ (b.toNat = 0 → c.val.toNat = 0) := by
  have hofNat : ∀ n, b = UInt8.ofNat n → n < 255 → b.toNat = n := by
    rintro n rfl hlt
    exact UInt8.toNat_ofNat_of_lt' (Nat.lt_succ_of_lt hlt)
  -- only the encoding of a character below 128 has a byte below 128
  have hhigh : ∀ n, b = UInt8.ofNat n → n < 255 → 128 ≤ n →
      b.toNat < 255 ∧ (b.toNat = 0 → c.val.toNat = 0) := by
    intro n hn hlt hge
    rw [hofNat n hn hlt]
    exact ⟨hlt, fun hzero => absurd hge (by omega)⟩
  unfold String.utf8EncodeChar at h
  simp only at h
  split at h
  · rw [hofNat _ (mem_singleton.mp h) (by omega)]
    exact ⟨by omega, id⟩
  split at h
  · simp only [mem_cons, not_mem_nil, or_false] at h
    rcases h with h | h <;> exact hhigh _ h (by omega) (by omega)
  split at h
  · simp only [mem_cons, not_mem_nil, or_false] at h
    rcases h with h | h | h <;> exact hhigh _ h (by omega) (by omega)
  · simp only [mem_cons, not_mem_nil, or_false] at h
    rcases h with h | h | h | h <;> exact hhigh _ h (by omega) (by omega)

theorem append_separator_inj {α : Type} {a : α} {l₁ l₂ rest₁ rest₂ : List α} (h₁ : a ∉ l₁)
    (h₂ : a ∉ l₂) (h : l₁ ++ a :: rest₁ = l₂ ++ a :: rest₂) : l₁ = l₂ ∧ rest₁ = rest₂ := by
  induction l₁ generalizing l₂ with
  | nil =>
    cases l₂ with
    | nil => exact ⟨rfl, (cons.inj h).2⟩
    | cons b l₂ => exact absurd (mem_cons.mpr (.inl (cons.inj h).1)) h₂
  | cons b l₁ ih =>
    cases l₂ with
    | nil => exact absurd (mem_cons.mpr (.inl (cons.inj h).1.symm)) h₁
    | cons c l₂ =>
      obtain ⟨hhead, htail⟩ := cons.inj h
      obtain ⟨hlists, hrest⟩ := ih (fun hmem => h₁ (mem_cons_of_mem _ hmem))
        (fun hmem => h₂ (mem_cons_of_mem _ hmem)) htail
      exact ⟨by rw [hhead, hlists], hrest⟩

theorem not_mem_asBytes_max (s : String) : 0xff ∉ asBytes s := by
  intro h
  obtain ⟨c, -, hc⟩ := mem_flatMap.mp h
  exact absurd (toNat_lt_of_mem_utf8EncodeChar hc).1 (by decide)

theorem not_mem_asBytes_zero {s : String} (h : ∀ ch ∈ s.toList, isLabelRest ch) :
    0 ∉ asBytes s := by
  intro hzero
  obtain ⟨c, hmem, hc⟩ := mem_flatMap.mp hzero
  have hval := (toNat_lt_of_mem_utf8EncodeChar hc).2 rfl
  have hnul : c = '\x00' := Char.ext (UInt32.toNat_inj.mp hval)
  exact absurd (h c hmem) (by rw [hnul]; decide)

/-- A label set is determined by its bytes: a name ends at the first zero, a value at the byte that
no text has. -/
theorem seriesIdBytes_inj {labels labels' : List (String × String)}
    (h : ∀ label ∈ labels, ∀ ch ∈ label.1.toList, isLabelRest ch)
    (h' : ∀ label ∈ labels', ∀ ch ∈ label.1.toList, isLabelRest ch)
    (heq : seriesIdBytes labels = seriesIdBytes labels') : labels = labels' := by
  have hcons : ∀ (label : String × String) (labels : List (String × String)),
      seriesIdBytes (label :: labels) =
        asBytes label.1 ++ 0 :: (asBytes label.2 ++ 0xff :: seriesIdBytes labels) := by
    intro label labels
    simp [seriesIdBytes]
  induction labels generalizing labels' with
  | nil =>
    cases labels' with
    | nil => rfl
    | cons label' labels' =>
      have hlength := congrArg length heq
      simp [seriesIdBytes] at hlength
  | cons label labels ih =>
    cases labels' with
    | nil =>
      have hlength := congrArg length heq
      rw [hcons] at hlength
      simp [seriesIdBytes] at hlength
    | cons label' labels' =>
      obtain ⟨hname, hnames⟩ := forall_mem_cons.mp h
      obtain ⟨hname', hnames'⟩ := forall_mem_cons.mp h'
      rw [hcons, hcons] at heq
      obtain ⟨hfst, heq⟩ := append_separator_inj (not_mem_asBytes_zero hname)
        (not_mem_asBytes_zero hname') heq
      obtain ⟨hsnd, heq⟩ := append_separator_inj (not_mem_asBytes_max _)
        (not_mem_asBytes_max _) heq
      rw [Prod.ext (asBytes_injective hfst) (asBytes_injective hsnd), ih hnames hnames' heq]

end Chronoxide
