import Chronoxide.Encoding.Utf8

/-! Truncation of the write-ahead log (`storage/wal.rs`): file names, log sequence numbers and the
deletion of the files that the live segments cover. File operations are taken to succeed. -/

namespace Chronoxide
open Codec List Nat

def walLsnSequenceShift : UInt64 := 40
def walLsnOffsetMask : UInt64 := (1 <<< walLsnSequenceShift) - 1
def walLsnMaxSequence : UInt32 := (18446744073709551615 >>> walLsnSequenceShift).toUInt32

def sixDigits (n : Nat) : List Char := (Nat.toDigits 10 n).leftpad 6 '0'

def walFileName (sequence : UInt32) : String :=
  String.ofList ("wal-".toList ++ sixDigits sequence.toNat ++ ".log".toList)

/-- Six bytes that are ASCII digits are six digit characters. -/
def parseWalFileName (fileName : String) : Except IoError UInt32 :=
  match (stripPrefix fileName "wal-").bind (stripSuffix · ".log") with
  | none => .error (invalidInput "WAL file name must be wal-000000.log style")
  | some rawSequence => do
    require (rawSequence.toList.length = 6 ∧ rawSequence.toList.all Char.isDigit)
      (invalidInput "WAL file sequence must be six decimal digits")
    let sequence := Nat.ofDigitChars 10 rawSequence.toList 0
    require (sequence < 2 ^ 32) (invalidInput "number too large to fit in target type")
    return UInt32.ofNat sequence

def walLsn (sequence : UInt32) (offset : UInt64) : Except IoError UInt64 := do
  require (sequence ≤ walLsnMaxSequence)
    (invalidInput "WAL file sequence exceeds encodable LSN range")
  require (offset ≤ walLsnOffsetMask) (invalidInput "WAL file offset exceeds encodable LSN range")
  return (sequence.toUInt64 <<< walLsnSequenceShift) ||| offset

def walLsnSequence (lsn : UInt64) : UInt32 := (lsn >>> walLsnSequenceShift).toUInt32

structure ManifestSegment where
  segmentId : String
  startMs : UInt64
  endMs : UInt64
  walLsnBoundary : Option UInt64
  deriving DecidableEq, Repr

structure ManifestInventory where
  segments : List ManifestSegment
  deriving DecidableEq, Repr

/-- One segment without a boundary makes every record needed. -/
def lowerBoundary (safeLsn : Option UInt64) (segment : ManifestSegment) : Option (Option UInt64) :=
  segment.walLsnBoundary.map fun boundary =>
    some (match safeLsn with
      | some existing => min existing boundary
      | none => boundary)

def safeWalTruncationLsn (inventory : ManifestInventory) : Option UInt64 :=
  (inventory.segments.foldlM lowerBoundary none).join

structure DirEntry where
  fileName : String
  isFile : Bool
  deriving DecidableEq, Repr

abbrev Directory := List DirEntry

variable (dir : Directory)

def Directory.removeFile (fileName : String) : Directory :=
  dir.filter fun entry => entry.fileName ≠ fileName

structure WalFileEntry where
  sequence : UInt32
  fileName : String
  deriving DecidableEq, Repr

def walFileOf (entry : DirEntry) : Option WalFileEntry :=
  if entry.isFile then
    match parseWalFileName entry.fileName with
    | .ok sequence => some ⟨sequence, entry.fileName⟩
    | .error _ => none
  else none

def WalFileEntry.le (left right : WalFileEntry) : Bool :=
  left.sequence < right.sequence || left.sequence == right.sequence && left.fileName ≤ right.fileName

def discoverWalFiles : List WalFileEntry :=
  (dir.filterMap walFileOf).mergeSort WalFileEntry.le

structure WalTruncationReport where
  safeLsn : Option UInt64
  activeSequence : UInt32
  deletedFiles : List String
  keptFiles : List String
  deriving DecidableEq, Repr

variable (safeSequence activeSequence : UInt32)

def truncateFile (state : WalTruncationReport × Directory) (file : WalFileEntry)
    : WalTruncationReport × Directory :=
  if file.sequence < safeSequence ∧ file.sequence < activeSequence then
    ({ state.1 with deletedFiles := state.1.deletedFiles ++ [file.fileName] },
      state.2.removeFile file.fileName)
  else ({ state.1 with keptFiles := state.1.keptFiles ++ [file.fileName] }, state.2)

def truncateWalPrefix (safeLsn : Option UInt64) (activeSequence : UInt32) :
    WalTruncationReport × Directory :=
  let files := discoverWalFiles dir
  match safeLsn with
  | none => (⟨none, activeSequence, [], files.map (·.fileName)⟩, dir)
  | some lsn =>
    files.foldl (truncateFile (walLsnSequence lsn) activeSequence)
      (⟨some lsn, activeSequence, [], []⟩, dir)

def truncateWalPrefixFromManifest (inventory : ManifestInventory) (activeSequence : UInt32)
    : WalTruncationReport × Directory :=
  truncateWalPrefix dir (safeWalTruncationLsn inventory) activeSequence

theorem ofDigitChars_sixDigits (n : Nat) : ofDigitChars 10 (sixDigits n) 0 = n := by
  rw [sixDigits, leftpad, ofDigitChars_append, ofDigitChars_replicate_zero, mul_zero,
    ofDigitChars_ten_toDigits]

theorem sixDigits_length (n : Nat) : (sixDigits n).length = 6 ↔ n < 1000000 := by
  have hle := @length_toDigits_le_iff 10 n 6 (by decide) (by decide)
  rw [sixDigits, length_leftpad]
  change _ ↔ n < 10 ^ 6
  omega

theorem sixDigits_all (n : Nat) : (sixDigits n).all Char.isDigit = true := by
  rw [all_eq_true]
  intro c hc
  rw [sixDigits, leftpad, mem_append] at hc
  rcases hc with hc | hc
  · rw [eq_of_mem_replicate hc]
    decide
  · exact isDigit_of_mem_toDigits (by decide) (by decide) hc

theorem strip_walFileName (sequence : UInt32) :
    (stripPrefix (walFileName sequence) "wal-").bind (stripSuffix · ".log") =
      some (String.ofList (sixDigits sequence.toNat)) := by
  -- the equation of the definition is slow to generate
  delta walFileName
  rw [append_assoc, ← String.ofList_toList (s := "wal-"), String.toList_ofList,
    stripPrefix_append, Option.bind_some, ← String.ofList_toList (s := ".log"), String.toList_ofList,
    stripSuffix_append]

theorem parseWalFileName_ok {sequence read : UInt32} :
    parseWalFileName (walFileName sequence) = .ok read ↔ sequence.toNat < 1000000 ∧ read = sequence := by
  unfold parseWalFileName
  rw [strip_walFileName]
  simp only [require_bind_ok, except_pure_ok, String.toList_ofList, ofDigitChars_sixDigits,
    sixDigits_length, sixDigits_all, and_true, UInt32.ofNat_toNat, sequence.toNat_lt, true_and]
  exact and_congr_right fun _ => eq_comm

theorem walFileName_injective : Function.Injective walFileName := by
  intro a b h
  have hstrip := strip_walFileName a
  rw [h, strip_walFileName b, Option.some.injEq, String.ofList_inj] at hstrip
  have hdigits := congrArg (ofDigitChars 10 · 0) hstrip
  rw [ofDigitChars_sixDigits, ofDigitChars_sixDigits] at hdigits
  exact (UInt32.toNat_inj.mp hdigits).symm

theorem walLsnSequence_toNat (lsn : UInt64) : (walLsnSequence lsn).toNat = lsn.toNat / 2 ^ 40 := by
  have hlt := lsn.toNat_lt
  rw [walLsnSequence, UInt64.toNat_toUInt32, UInt64.toNat_shiftRight]
  change (lsn.toNat >>> 40) % 2 ^ 32 = _
  rw [shiftRight_eq_div_pow, mod_eq_of_lt]
  omega

theorem walLsn_ok {sequence : UInt32} {offset lsn : UInt64} :
    walLsn sequence offset = .ok lsn ↔ sequence.toNat < 2 ^ 24 ∧ offset.toNat < 2 ^ 40 ∧
      lsn.toNat = sequence.toNat * 2 ^ 40 + offset.toNat := by
  have hsequence : sequence ≤ walLsnMaxSequence ↔ sequence.toNat < 2 ^ 24 := by
    rw [UInt32.le_iff_toNat_le]
    change _ ≤ 16777215 ↔ _
    omega
  have hoffset : offset ≤ walLsnOffsetMask ↔ offset.toNat < 2 ^ 40 := by
    rw [UInt64.le_iff_toNat_le]
    change _ ≤ 1099511627775 ↔ _
    omega
  unfold walLsn
  simp only [require_bind_ok, except_pure_ok, hsequence, hoffset]
  refine and_congr_right fun hseq => and_congr_right fun hoff => ?_
  have hvalue : ((sequence.toUInt64 <<< walLsnSequenceShift) ||| offset).toNat =
      sequence.toNat * 2 ^ 40 + offset.toNat := by
    rw [UInt64.toNat_or, UInt64.toNat_shiftLeft, UInt32.toNat_toUInt64]
    change ((sequence.toNat <<< 40) % 2 ^ 64) ||| offset.toNat = _
    rw [shiftLeft_eq, mod_eq_of_lt (by omega), mul_comm, ← two_pow_add_eq_or_of_lt hoff]
  rw [← UInt64.toNat_inj, hvalue, eq_comm]

theorem uint64_min_le (a b : UInt64) : min a b ≤ a ∧ min a b ≤ b := by
  change (if a ≤ b then a else b) ≤ a ∧ (if a ≤ b then a else b) ≤ b
  split
  · rename_i hle
    exact ⟨UInt64.le_refl a, hle⟩
  · rename_i hnot
    exact ⟨UInt64.le_of_lt (UInt64.not_le.mp hnot), UInt64.le_refl b⟩

theorem le_of_lowerBoundary {segments : List ManifestSegment} {start result : Option UInt64}
    (h : segments.foldlM lowerBoundary start = some result) :
    (∀ lsn, start = some lsn → ∃ safe, result = some safe ∧ safe ≤ lsn) ∧
      ∀ segment ∈ segments, ∃ boundary safe, segment.walLsnBoundary = some boundary ∧
        result = some safe ∧ safe ≤ boundary := by
  induction segments generalizing start with
  | nil =>
    cases h
    exact ⟨fun lsn hlsn => ⟨lsn, hlsn, UInt64.le_refl _⟩, nofun⟩
  | cons segment segments ih =>
    rw [foldlM_cons, Option.bind_eq_bind, Option.bind_eq_some_iff] at h
    obtain ⟨next, hnext, hrest⟩ := h
    obtain ⟨boundary, hboundary, rfl⟩ := Option.map_eq_some_iff.mp hnext
    obtain ⟨hstart, hsegments⟩ := ih hrest
    obtain ⟨safe, hsafe, hle⟩ := hstart _ rfl
    refine ⟨fun lsn hlsn => ?_, forall_mem_cons.mpr ⟨?_, hsegments⟩⟩
    · rw [hlsn] at hle
      exact ⟨safe, hsafe, UInt64.le_trans hle (uint64_min_le _ _).1⟩
    refine ⟨boundary, safe, hboundary, hsafe, UInt64.le_trans hle ?_⟩
    split
    · exact (uint64_min_le _ _).2
    · exact UInt64.le_refl _

theorem safeWalTruncationLsn_le {inventory : ManifestInventory} {safe : UInt64}
    (h : safeWalTruncationLsn inventory = some safe) :
    ∀ segment ∈ inventory.segments, ∃ boundary, segment.walLsnBoundary = some boundary ∧
      safe ≤ boundary := by
  intro segment hmem
  obtain ⟨boundary, safe', hboundary, hsafe, hle⟩ :=
    (le_of_lowerBoundary (Option.join_eq_some_iff.mp h)).2 segment hmem
  cases hsafe
  exact ⟨boundary, hboundary, hle⟩

theorem foldl_truncateFile (files : List WalFileEntry) (state : WalTruncationReport × Directory) :
    (files.foldl (truncateFile safeSequence activeSequence) state).2 =
      state.2.filter fun entry => files.all fun file =>
        ¬(file.sequence < safeSequence ∧ file.sequence < activeSequence) ∨
          entry.fileName ≠ file.fileName := by
  induction files generalizing state with
  | nil => simp
  | cons file files ih =>
    rw [foldl_cons, ih, truncateFile]
    split
    · rename_i hcovered
      rw [Directory.removeFile, filter_filter]
      congr 1
      funext entry
      rw [Bool.and_comm, all_cons]
      simp only [hcovered, not_true_eq_false, false_or, and_self]
    · rename_i hcovered
      congr 1
      funext entry
      simp only [all_cons, hcovered, not_false_eq_true, true_or, decide_true, Bool.true_and]

def walFiles (sequences : List UInt32) : Directory := sequences.map fun s => ⟨walFileName s, true⟩

theorem mem_discoverWalFiles {sequences : List UInt32} {file : WalFileEntry} :
    file ∈ discoverWalFiles (walFiles sequences) ↔
      ∃ s ∈ sequences, s.toNat < 1000000 ∧ file = ⟨s, walFileName s⟩ := by
  rw [discoverWalFiles, mem_mergeSort, mem_filterMap]
  constructor
  · rintro ⟨entry, hentry, hfile⟩
    obtain ⟨s, hs, rfl⟩ := mem_map.mp hentry
    rw [walFileOf, if_pos rfl] at hfile
    split at hfile
    · rename_i read hread
      obtain ⟨hsmall, heq⟩ := parseWalFileName_ok.mp hread
      cases hfile
      exact ⟨s, hs, hsmall, by rw [heq]⟩
    · cases hfile
  · rintro ⟨s, hs, hsmall, rfl⟩
    refine ⟨_, mem_map_of_mem hs, ?_⟩
    rw [walFileOf, if_pos rfl, parseWalFileName_ok.mpr ⟨hsmall, rfl⟩]

/-- The sequence lies below the safe one and below the active one. -/
def Covered (inventory : ManifestInventory) (activeSequence sequence : UInt32) : Prop :=
  (∃ safe, safeWalTruncationLsn inventory = some safe ∧ sequence < walLsnSequence safe) ∧
    sequence < activeSequence

def Deleted (sequences : List UInt32) (inventory : ManifestInventory) (activeSequence sequence : UInt32) :
    Prop :=
  ⟨walFileName sequence, true⟩ ∉
    (truncateWalPrefixFromManifest (walFiles sequences) inventory activeSequence).2

theorem deleted_iff {sequences : List UInt32} {inventory : ManifestInventory}
    {activeSequence sequence : UInt32} (hmem : sequence ∈ sequences) :
    Deleted sequences inventory activeSequence sequence ↔
      sequence.toNat < 1000000 ∧ Covered inventory activeSequence sequence := by
  have hfile : ⟨walFileName sequence, true⟩ ∈ walFiles sequences := mem_map_of_mem hmem
  unfold Deleted truncateWalPrefixFromManifest truncateWalPrefix Covered
  cases hsafe : safeWalTruncationLsn inventory with
  | none =>
    refine iff_of_false (fun hnot => hnot hfile) ?_
    rintro ⟨-, ⟨safe, hsome, -⟩, -⟩
    cases hsome
  | some safe =>
    dsimp only
    rw [foldl_truncateFile, mem_filter, and_iff_right hfile, Bool.not_eq_true, all_eq_false]
    constructor
    · rintro ⟨file, hmem, hnot⟩
      obtain ⟨s, -, hsmall, rfl⟩ := mem_discoverWalFiles.mp hmem
      rw [decide_eq_true_eq, not_or] at hnot
      obtain ⟨hcovered, hname⟩ := hnot
      obtain rfl := walFileName_injective (not_not.mp hname)
      obtain ⟨hbelow, hactive⟩ := not_not.mp hcovered
      exact ⟨hsmall, ⟨safe, rfl, hbelow⟩, hactive⟩
    rintro ⟨hsmall, ⟨safe', hsafe', hbelow⟩, hactive⟩
    cases hsafe'
    refine ⟨_, mem_discoverWalFiles.mpr ⟨sequence, hmem, hsmall, rfl⟩, fun hkept => ?_⟩
    rcases of_decide_eq_true hkept with hnot | hname
    · exact hnot ⟨hbelow, hactive⟩
    · exact hname rfl

structure TruncatesExactly (sequences : List UInt32) (inventory : ManifestInventory)
    (activeSequence : UInt32) : Prop where
  deletes : ∀ s ∈ sequences, Deleted sequences inventory activeSequence s ↔
    Covered inventory activeSequence s
  /-- No record at or above the boundary of a live segment is lost. -/
  safe : ∀ s ∈ sequences, Deleted sequences inventory activeSequence s →
    ∀ offset lsn, walLsn s offset = .ok lsn → ∀ segment ∈ inventory.segments,
      ∃ boundary, segment.walLsnBoundary = some boundary ∧ lsn < boundary
  /-- A file all of whose records lie below the safe position is deleted. -/
  complete : ∀ s ∈ sequences, s ≤ walLsnMaxSequence → s < activeSequence →
    (∃ safe, safeWalTruncationLsn inventory = some safe ∧
      ∀ offset lsn, walLsn s offset = .ok lsn → lsn < safe) →
    Deleted sequences inventory activeSequence s

section
variable {sequences : List UInt32} {inventory : ManifestInventory} {activeSequence sequence : UInt32}

theorem lsn_lt_of_covered (h : Covered inventory activeSequence sequence) {offset lsn : UInt64}
    (hlsn : walLsn sequence offset = .ok lsn) : ∀ segment ∈ inventory.segments,
      ∃ boundary, segment.walLsnBoundary = some boundary ∧ lsn < boundary := by
  intro segment hmem
  obtain ⟨⟨safe, hsafe, hbelow⟩, -⟩ := h
  obtain ⟨boundary, hboundary, hle⟩ := safeWalTruncationLsn_le hsafe segment hmem
  obtain ⟨-, hoffset, hvalue⟩ := walLsn_ok.mp hlsn
  refine ⟨boundary, hboundary, UInt64.lt_of_lt_of_le ?_ hle⟩
  rw [UInt32.lt_iff_toNat_lt, walLsnSequence_toNat] at hbelow
  rw [UInt64.lt_iff_toNat_lt, hvalue]
  omega

theorem covered_of_lsn_lt {safe : UInt64} (hmax : sequence ≤ walLsnMaxSequence)
    (hactive : sequence < activeSequence) (hsafe : safeWalTruncationLsn inventory = some safe)
    (h : ∀ offset lsn, walLsn sequence offset = .ok lsn → lsn < safe) :
    Covered inventory activeSequence sequence := by
  have hsequence : sequence.toNat < 2 ^ 24 := by
    rw [UInt32.le_iff_toNat_le] at hmax
    change _ ≤ 16777215 at hmax
    omega
  have hlast : (UInt64.ofNat (sequence.toNat * 2 ^ 40 + (2 ^ 40 - 1))).toNat =
      sequence.toNat * 2 ^ 40 + (2 ^ 40 - 1) :=
    UInt64.toNat_ofNat_of_lt' (by change _ < 2 ^ 64; omega)
  have hlt := h (UInt64.ofNat (2 ^ 40 - 1)) (UInt64.ofNat (sequence.toNat * 2 ^ 40 + (2 ^ 40 - 1)))
    (walLsn_ok.mpr ⟨hsequence, by decide, hlast⟩)
  refine ⟨⟨safe, hsafe, ?_⟩, hactive⟩
  rw [UInt64.lt_iff_toNat_lt, hlast] at hlt
  rw [UInt32.lt_iff_toNat_lt, walLsnSequence_toNat]
  omega

/-- The truncation is exact where no covered file has a name of more than six digits. -/
theorem truncatesExactly_iff : TruncatesExactly sequences inventory activeSequence ↔
    ∀ s ∈ sequences, 999999 < s → ¬Covered inventory activeSequence s := by
  have hdigits : ∀ s : UInt32, 999999 < s ↔ ¬s.toNat < 1000000 := by
    intro s
    rw [UInt32.lt_iff_toNat_lt]
    change 999999 < s.toNat ↔ _
    omega
  constructor
  · intro h s hmem hlong hcovered
    exact (hdigits s).mp hlong ((deleted_iff hmem).mp ((h.deletes s hmem).mpr hcovered)).1
  intro h
  have hdeletes : ∀ s ∈ sequences, Deleted sequences inventory activeSequence s ↔
      Covered inventory activeSequence s := by
    intro s hmem
    rw [deleted_iff hmem]
    refine and_iff_right_of_imp fun hcovered => ?_
    by_contra hlong
    exact h s hmem ((hdigits s).mpr hlong) hcovered
  refine ⟨hdeletes, fun s hmem hdeleted offset lsn => ?_, ?_⟩
  · exact lsn_lt_of_covered ((hdeletes s hmem).mp hdeleted)
  · rintro s hmem hmax hactive ⟨safe, hsafe, hall⟩
    exact (hdeletes s hmem).mpr (covered_of_lsn_lt hmax hactive hsafe hall)

end

/-- The file of sequence 1000000 is covered by a segment with its boundary in the next file, and stays. -/
theorem covered_file_stays :
    ¬TruncatesExactly [1000000] ⟨[⟨"s", 0, 1, some 1099512727287627776⟩]⟩ 1000001 := by
  intro h
  have hcovered : Covered ⟨[⟨"s", 0, 1, some 1099512727287627776⟩]⟩ 1000001 1000000 :=
    ⟨⟨1099512727287627776, rfl, by decide⟩, by decide⟩
  have hdeleted := (h.deletes 1000000 mem_cons_self).mpr hcovered
  exact absurd ((deleted_iff mem_cons_self).mp hdeleted).1 (by decide)

end Chronoxide
