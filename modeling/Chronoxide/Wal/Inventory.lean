import Mathlib.Data.String.Basic
import Chronoxide.Collections.OrderedMap
import Chronoxide.Head.Series
import Chronoxide.Wal.Records

/-! The live segments that the records of a manifest amount to, and their retention
(`storage/manifest.rs`). -/

namespace Chronoxide
open Codec StableSort List

abbrev LiveSegments := OrderedMap String (Nat × ManifestSegment)

namespace ManifestRecord

def segmentId : ManifestRecord → String
  | segmentSealed segment => segment.segmentId
  | segmentDeleted segmentId => segmentId

variable (parseUlid : String → Option (BitVec 128))

def validate : ManifestRecord → Except IoError Unit
  | segmentSealed segment =>
    validateSegmentId parseUlid segment.segmentId segment.startMs segment.endMs
  | segmentDeleted segmentId => validateManifestSegmentName parseUlid segmentId

def applyTo (live : LiveSegments) : ManifestRecord × Nat → LiveSegments
  | (segmentSealed segment, recordOrdinal) =>
    live.insert segment.segmentId (recordOrdinal, segment)
  | (segmentDeleted segmentId, _) => live.erase segmentId

end ManifestRecord

namespace ManifestInventory

variable (parseUlid : String → Option (BitVec 128))

def fromRecords (records : List ManifestRecord) : Except IoError ManifestInventory := do
  let live ← records.zipIdx.foldlM (fun live entry => do
    entry.1.validate parseUlid
    return ManifestRecord.applyTo live entry) {}
  return ⟨(sortByKey Prod.fst (live.toList.map Prod.snd)).map Prod.snd⟩

end ManifestInventory

/-- The seals that no later record of the same segment follows, with their ordinals. -/
def latestSeals : List (ManifestRecord × Nat) → List (Nat × ManifestSegment)
  | [] => []
  | (.segmentSealed segment, ordinal) :: later =>
    if later.any (·.1.segmentId = segment.segmentId) then latestSeals later
    else (ordinal, segment) :: latestSeals later
  | (.segmentDeleted _, _) :: later => latestSeals later

theorem mem_latestSeals_cons {record : ManifestRecord} {ordinal : Nat}
    {later : List (ManifestRecord × Nat)} {p : Nat × ManifestSegment} :
    p ∈ latestSeals ((record, ordinal) :: later) ↔
      p ∈ latestSeals later ∨ (record = .segmentSealed p.2 ∧ ordinal = p.1) ∧
        ∀ e ∈ later, e.1.segmentId ≠ p.2.segmentId := by
  obtain ⟨o, s⟩ := p
  cases record with
  | segmentDeleted segmentId => simp [latestSeals]
  | segmentSealed segment =>
    rw [latestSeals]
    split <;> grind

variable {live : LiveSegments} {record : ManifestRecord} {ordinal : Nat}
  {p q : Nat × ManifestSegment} {k : String}

open ManifestRecord

theorem getElem?_applyTo_self :
    (applyTo live (record, ordinal))[record.segmentId]? = some p ↔
      record = .segmentSealed p.2 ∧ ordinal = p.1 := by
  obtain ⟨o, s⟩ := p
  cases record <;> simp [applyTo, segmentId, and_comm]

theorem getElem?_applyTo_ne (h : record.segmentId ≠ k) :
    (applyTo live (record, ordinal))[k]? = live[k]? := by
  have hcmp : compare record.segmentId k ≠ .eq := fun heq => h (compare_eq_iff_eq.mp heq)
  cases record with
  | segmentDeleted segmentId => exact Std.TreeMap.getElem?_erase.trans (if_neg hcmp)
  | segmentSealed segment => exact Std.TreeMap.getElem?_insert.trans (if_neg hcmp)

theorem getElem?_foldl (live : LiveSegments) (entries : List (ManifestRecord × Nat)) :
    (entries.foldl applyTo live)[k]? = some p ↔
      (p ∈ latestSeals entries ∧ p.2.segmentId = k) ∨
        live[k]? = some p ∧ ∀ e ∈ entries, e.1.segmentId ≠ k := by
  induction entries generalizing live with
  | nil => simp [latestSeals]
  | cons entry later ih =>
    obtain ⟨record, ordinal⟩ := entry
    rw [foldl_cons, ih, mem_latestSeals_cons, forall_mem_cons]
    by_cases hk : record.segmentId = k
    · subst hk
      rw [getElem?_applyTo_self]
      grind [segmentId]
    · rw [getElem?_applyTo_ne hk]
      grind [segmentId]

theorem latestSeals_increasing (records : List ManifestRecord) (n : Nat) :
    (latestSeals (records.zipIdx n)).Pairwise (fun p q => p.1 < q.1) ∧
      ∀ p ∈ latestSeals (records.zipIdx n), n ≤ p.1 := by
  induction records generalizing n with
  | nil => simp [latestSeals]
  | cons record later ih =>
    obtain ⟨hsorted, hle⟩ := ih (n + 1)
    have hlater : ∀ p ∈ latestSeals (later.zipIdx (n + 1)), n ≤ p.1 :=
      fun p hp => Nat.le_of_succ_le (hle p hp)
    rw [zipIdx_cons]
    cases record with
    | segmentDeleted segmentId => exact ⟨hsorted, hlater⟩
    | segmentSealed segment =>
      rw [latestSeals]
      split
      · exact ⟨hsorted, hlater⟩
      · refine ⟨pairwise_cons.mpr ⟨hle, hsorted⟩, ?_⟩
        simpa using hlater

theorem sortByKey_live (records : List ManifestRecord) {live : LiveSegments}
    (hlive : records.zipIdx.foldl applyTo {} = live) :
    sortByKey Prod.fst (live.toList.map Prod.snd) = latestSeals records.zipIdx := by
  obtain ⟨hsorted, -⟩ := latestSeals_increasing records 0
  have hget : ∀ k p, live[k]? = some p ↔ p ∈ latestSeals records.zipIdx ∧ p.2.segmentId = k := by
    intro k p
    rw [← hlive, getElem?_foldl]
    simp
  have hmem : ∀ k p, (k, p) ∈ live.toList ↔ p ∈ latestSeals records.zipIdx ∧ p.2.segmentId = k :=
    fun k p => Std.TreeMap.mem_toList_iff_getElem?_eq_some.trans (hget k p)
  have hnodup : (live.toList.map Prod.snd).Nodup := by
    refine pairwise_map.mpr (live.toList_increasing.imp_of_mem fun {a b} ha hb hlt heq => ?_)
    rw [← ((hmem a.1 a.2).mp ha).2, ← ((hmem b.1 b.2).mp hb).2, heq] at hlt
    exact lt_irrefl _ hlt
  have hperm : (live.toList.map Prod.snd).Perm (latestSeals records.zipIdx) := by
    refine (perm_ext_iff_of_nodup hnodup (hsorted.imp fun hlt heq => ?_)).mpr fun p => ?_
    · exact Nat.lt_irrefl _ (heq ▸ hlt)
    · simp [hmem]
  refine List.Perm.eq_of_pairwise (fun a b ha hb hab hba => ?_) (sortByKey_sorted _)
    (hsorted.imp Nat.le_of_lt) ((sortByKey_perm _).trans hperm)
  have ha' := ((sortByKey_perm _).trans hperm).mem_iff.mp ha
  exact inj_on_of_nodup_map (pairwise_map.mpr (hsorted.imp Nat.ne_of_lt)) ha' hb
    (Nat.le_antisymm hab hba)

variable {parseUlid : String → Option (BitVec 128)}

theorem fromRecords_ok {records : List ManifestRecord}
    {inventory : ManifestInventory} :
    ManifestInventory.fromRecords parseUlid records = .ok inventory ↔
      (∀ record ∈ records, record.validate parseUlid = .ok ()) ∧
        inventory.segments = (latestSeals records.zipIdx).map Prod.snd := by
  have hfold : ∀ (entries : List (ManifestRecord × Nat)) (live live' : LiveSegments),
      entries.foldlM (fun live entry => do
        entry.1.validate parseUlid
        return applyTo live entry) live = .ok live' ↔
      (∀ record ∈ entries.map Prod.fst, record.validate parseUlid = .ok ()) ∧
        entries.foldl applyTo live = live' := by
    intro entries
    induction entries with
    | nil => simp [pure, Except.pure]
    | cons entry later ih =>
      intro live live'
      simp only [foldlM_cons, except_bind_ok, except_pure_ok, map_cons, forall_mem_cons, foldl_cons]
      constructor
      · rintro ⟨_, ⟨⟨⟩, hvalid, rfl⟩, hrest⟩
        obtain ⟨hlater, heq⟩ := (ih _ _).mp hrest
        exact ⟨⟨hvalid, hlater⟩, heq⟩
      · rintro ⟨⟨hvalid, hlater⟩, heq⟩
        exact ⟨_, ⟨(), hvalid, rfl⟩, (ih _ _).mpr ⟨hlater, heq⟩⟩
  simp only [ManifestInventory.fromRecords, except_bind_ok, except_pure_ok, hfold, zipIdx_map_fst]
  constructor
  · rintro ⟨live, ⟨hvalid, hlive⟩, rfl⟩
    exact ⟨hvalid, by rw [sortByKey_live records hlive]⟩
  · rintro ⟨hvalid, hsegments⟩
    refine ⟨_, ⟨hvalid, rfl⟩, ?_⟩
    rw [sortByKey_live records rfl, ← hsegments]

structure RetentionTombstoneReport where
  tombstonedSegments : List String
  deriving DecidableEq, Repr

/-- The loop of `append_retention_tombstones`. `write` is the outcome of appending a record to the
records that the file has. -/
def appendTombstones (write : List ManifestRecord → ManifestRecord → Except IoError Unit)
    (retainAfterMs : UInt64) :
    List ManifestSegment → List ManifestRecord → Mutation (List ManifestRecord) (List String)
  | [], log => (.ok [], log)
  | segment :: rest, log =>
    if segment.endMs > retainAfterMs then appendTombstones write retainAfterMs rest log
    else
      match write log (.segmentDeleted segment.segmentId) with
      | .error error => (.error error, log)
      | .ok () =>
        match appendTombstones write retainAfterMs rest (log ++ [.segmentDeleted segment.segmentId])
        with
        | (.error error, log) => (.error error, log)
        | (.ok tombstoned, log) => (.ok (segment.segmentId :: tombstoned), log)

def appendRetentionTombstones (write : List ManifestRecord → ManifestRecord → Except IoError Unit)
    (syncAll : Except IoError Unit) (log : List ManifestRecord) (inventory : ManifestInventory)
    (retainAfterMs : UInt64) : Mutation (List ManifestRecord) RetentionTombstoneReport :=
  match appendTombstones write retainAfterMs inventory.segments log with
  | (.error error, log) => (.error error, log)
  | (.ok tombstoned, log) =>
    match if tombstoned = [] then .ok () else syncAll with
    | .error error => (.error error, log)
    | .ok () => (.ok ⟨tombstoned⟩, log)

variable (retainAfterMs : UInt64) (segments : List ManifestSegment)

def deletions : List ManifestRecord :=
  (segments.filter (¬ ·.endMs > retainAfterMs)).map (.segmentDeleted ·.segmentId)

theorem appendTombstones_ok {write : List ManifestRecord → ManifestRecord → Except IoError Unit}
    {retainAfterMs : UInt64} {segments : List ManifestSegment} {log log' : List ManifestRecord}
    {tombstoned : List String}
    (h : appendTombstones write retainAfterMs segments log = (.ok tombstoned, log')) :
    log' = log ++ deletions retainAfterMs segments := by
  induction segments generalizing log tombstoned with
  | nil =>
    cases h
    simp [deletions]
  | cons segment rest ih =>
    rw [appendTombstones] at h
    split at h
    · rename_i hkept
      rw [ih h]
      simp [deletions, hkept]
    rename_i hexpired
    split at h
    · cases h
    split at h
    · cases h
    rename_i hrest
    cases h
    rw [ih hrest, append_assoc, deletions, deletions, filter_cons_of_pos (by simpa using hexpired)]
    rfl

theorem latestSeals_append {entries tombstones : List (ManifestRecord × Nat)}
    (h : latestSeals tombstones = []) :
    latestSeals (entries ++ tombstones) = (latestSeals entries).filter fun p =>
      !(tombstones.map Prod.fst).any (·.segmentId = p.2.segmentId) := by
  simp only [any_map, Function.comp_def]
  induction entries with
  | nil => exact h
  | cons entry later ih =>
    obtain ⟨record, ordinal⟩ := entry
    cases record with
    | segmentDeleted segmentId => exact ih
    | segmentSealed segment =>
      rw [cons_append, latestSeals, latestSeals, ih, any_append]
      cases later.any (·.1.segmentId = segment.segmentId) <;>
        cases htombs : tombstones.any (·.1.segmentId = segment.segmentId) <;>
        simp [htombs]

theorem latestSeals_deletions (n : Nat) :
    latestSeals ((deletions retainAfterMs segments).zipIdx n) = [] := by
  rw [deletions]
  generalize segments.filter _ = expired
  induction expired generalizing n with
  | nil => rfl
  | cons segment rest ih =>
    rw [map_cons, zipIdx_cons]
    exact ih _

theorem validate_deleted {segment : ManifestSegment}
    (h : (segmentSealed segment).validate parseUlid = .ok ()) :
    (segmentDeleted segment.segmentId).validate parseUlid = .ok () := by
  rw [validate, validateSegmentId] at h
  rw [validate, validateManifestSegmentName]
  split at h
  · cases h
  · rfl

variable {entries : List (ManifestRecord × Nat)}

theorem sealed_of_mem_latestSeals {p : Nat × ManifestSegment} (h : p ∈ latestSeals entries) :
    .segmentSealed p.2 ∈ entries.map Prod.fst := by
  induction entries with
  | nil => cases h
  | cons entry later ih =>
    rcases mem_latestSeals_cons.mp h with hlater | ⟨⟨hseal, -⟩, -⟩
    · exact mem_cons_of_mem _ (ih hlater)
    · exact hseal ▸ mem_cons_self ..

theorem latestSeals_unique {p q : Nat × ManifestSegment} (hp : p ∈ latestSeals entries)
    (hq : q ∈ latestSeals entries) (hid : p.2.segmentId = q.2.segmentId) : p = q :=
  Option.some.inj (((getElem?_foldl {} entries).mpr (.inl ⟨hp, hid⟩)).symm.trans
    ((getElem?_foldl {} entries).mpr (.inl ⟨hq, rfl⟩)))

theorem fromRecords_retention
    {records : List ManifestRecord} {inventory : ManifestInventory}
    (h : ManifestInventory.fromRecords parseUlid records = .ok inventory) :
    ManifestInventory.fromRecords parseUlid
        (records ++ deletions retainAfterMs inventory.segments) =
      .ok ⟨inventory.segments.filter (·.endMs > retainAfterMs)⟩ := by
  obtain ⟨segments⟩ := inventory
  obtain ⟨hvalid, rfl⟩ := fromRecords_ok.mp h
  refine fromRecords_ok.mpr ⟨forall_mem_append.mpr
    ⟨hvalid, forall_mem_map.mpr fun segment hsegment => ?_⟩, ?_⟩
  · obtain ⟨p, hp, rfl⟩ := mem_map.mp (mem_of_mem_filter hsegment)
    have hsealed := sealed_of_mem_latestSeals hp
    rw [zipIdx_map_fst] at hsealed
    exact validate_deleted (hvalid _ hsealed)
  rw [zipIdx_append, latestSeals_append (latestSeals_deletions ..), filter_map]
  refine congrArg (map Prod.snd) (filter_congr fun p hp => ?_)
  rw [zipIdx_map_fst, Function.comp_apply, Bool.eq_iff_iff, Bool.not_eq_true', any_eq_false]
  constructor
  · intro hkept record hrecord hid
    obtain ⟨segment, hsegment, rfl⟩ := mem_map.mp hrecord
    obtain ⟨hsegment, hexpired⟩ := mem_filter.mp hsegment
    obtain ⟨q, hq, rfl⟩ := mem_map.mp hsegment
    -- a segment is in the inventory once, so the deletion is its own
    obtain rfl := latestSeals_unique hq hp (of_decide_eq_true hid)
    exact of_decide_eq_true hexpired (of_decide_eq_true hkept)
  · intro hnone
    by_contra hexpired
    refine hnone _ (mem_map_of_mem (mem_filter.mpr
      ⟨mem_map_of_mem hp, ?_⟩)) (decide_eq_true rfl)
    simpa using hexpired

/-- What replay keeps, and what it keeps after the segments up to a time are tombstoned. -/
theorem fromRecords_keeps_latest (parseUlid : String → Option (BitVec 128)) :
    (∀ records inventory, ManifestInventory.fromRecords parseUlid records = .ok inventory ↔
      (∀ record ∈ records, record.validate parseUlid = .ok ()) ∧
        inventory.segments = (latestSeals records.zipIdx).map Prod.snd) ∧
    ∀ records inventory write syncAll retainAfterMs report log,
      ManifestInventory.fromRecords parseUlid records = .ok inventory →
      appendRetentionTombstones write syncAll records inventory retainAfterMs = (.ok report, log) →
      ManifestInventory.fromRecords parseUlid log =
        .ok ⟨inventory.segments.filter (·.endMs > retainAfterMs)⟩ := by
  refine ⟨fun _ _ => fromRecords_ok, ?_⟩
  intro records inventory write syncAll retainAfterMs report log hrecords happend
  rw [appendRetentionTombstones] at happend
  split at happend
  · cases happend
  rename_i hloop
  rw [appendTombstones_ok hloop] at happend
  split at happend
  · cases happend
  · cases happend
    exact fromRecords_retention retainAfterMs hrecords

/-- One segment is sealed twice, one is deleted, and retention takes the one that ends at 2. -/
theorem fromRecords_keeps_latest_sealed :
    let parseUlid : String → Option (BitVec 128) := fun _ => some 0
    let old : ManifestSegment := ⟨"seg-1-2-U", 1, 2, none⟩
    let new : ManifestSegment := ⟨"seg-3-9-U", 3, 9, some 5⟩
    let records : List ManifestRecord := [.segmentSealed { new with walLsnBoundary := none },
      .segmentSealed ⟨"seg-2-3-U", 2, 3, none⟩, .segmentSealed old, .segmentDeleted "seg-2-3-U",
      .segmentSealed new]
    ManifestInventory.fromRecords parseUlid records = .ok ⟨[old, new]⟩ ∧
      ∃ log, appendRetentionTombstones (fun _ _ => .ok ()) (.ok ()) records ⟨[old, new]⟩ 2 =
          (.ok ⟨["seg-1-2-U"]⟩, log) ∧
        ManifestInventory.fromRecords parseUlid log = .ok ⟨[new]⟩ := by
  intro parseUlid old new records
  obtain ⟨hreplay, hretain⟩ := fromRecords_keeps_latest parseUlid
  have hinventory := (hreplay records ⟨[old, new]⟩).mpr
    ⟨by decide +kernel, by decide +kernel⟩
  obtain ⟨log, happend⟩ : ∃ log, appendRetentionTombstones (fun _ _ => .ok ()) (.ok ()) records
      ⟨[old, new]⟩ 2 = (.ok ⟨["seg-1-2-U"]⟩, log) := ⟨_, rfl⟩
  exact ⟨hinventory, log, happend, hretain records _ _ _ 2 _ log hinventory happend⟩

end Chronoxide
