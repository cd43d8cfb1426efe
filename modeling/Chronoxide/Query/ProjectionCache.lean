import Chronoxide.Query.Projection

/-! The caches of the sealed projections. They hold what the head computes anew for each sample, so
that the loops over counters and buckets push the same samples. -/

namespace Chronoxide
open KeepLast

def emit (env : ProjectionEnv) (out : ProjectedSeries) (e : LabelRow × PushedSample) :
    ProjectedSeries :=
  pushProjectedSample env out e.1 e.2

theorem getElem?_pushSeries (out : ProjectedSeries) (seriesId : UInt64) (labels : LabelRow)
    (s : PushedSample) (k : Nat) :
    (pushSeries out seriesId labels s)[k]? =
      if seriesId.toNat = k then
        some ((out[seriesId.toNat]?.getD (.new seriesId labels)).push s)
      else out[k]? := by
  rw [pushSeries, Std.TreeMap.getElem?_insert]
  by_cases hk : seriesId.toNat = k
  · rw [if_pos hk, if_pos (by rw [hk]; simp)]
  · rw [if_neg hk, if_neg (by simpa using hk)]

def CachedLabels (out : ProjectedSeries) (seriesId : UInt64) (labels : LabelRow)
    (cached : Option LabelRow) : Prop :=
  cached = some labels ∨ cached = none ∧ (out[seriesId.toNat]?).isSome

variable {out : ProjectedSeries}

theorem isSome_pushSeries {k : Nat} (h : (out[k]?).isSome) (seriesId : UInt64) (labels : LabelRow)
    (s : PushedSample) : ((pushSeries out seriesId labels s)[k]?).isSome := by
  rw [getElem?_pushSeries]
  split
  · rfl
  · exact h

variable {cached : Option LabelRow} {seriesId : UInt64} {labels : LabelRow}

theorem CachedLabels.mono (h : CachedLabels out seriesId labels cached) (seriesId' : UInt64)
    (labels' : LabelRow) (s : PushedSample) :
    CachedLabels (pushSeries out seriesId' labels' s) seriesId labels cached :=
  h.imp_right fun hnone => ⟨hnone.1, isSome_pushSeries hnone.2 seriesId' labels' s⟩

theorem pushCached_eq (h : CachedLabels out seriesId labels cached) (s : PushedSample) :
    ∃ cached', pushProjectedSampleWithCachedSeries out seriesId cached s =
        some (pushSeries out seriesId labels s, cached') ∧
      CachedLabels (pushSeries out seriesId labels s) seriesId labels cached' := by
  unfold pushProjectedSampleWithCachedSeries
  have hpush : ((pushSeries out seriesId labels s)[seriesId.toNat]?).isSome := by
    rw [getElem?_pushSeries, if_pos rfl]
    rfl
  cases hout : out[seriesId.toNat]? with
  | some result =>
    refine ⟨cached, ?_, h.mono seriesId labels s⟩
    simp only [pushSeries, hout]
    rfl
  | none =>
    rcases h with rfl | ⟨-, hsome⟩
    · refine ⟨none, ?_, .inr ⟨rfl, hpush⟩⟩
      simp only [pushSeries, hout]
      rfl
    · rw [hout] at hsome
      cases hsome

section Counters
variable {A α σ : Type} (value : A → TypedSampleMetadata → α → A × Option ProjectedValue)
  (startMs endMs : UInt64)

def counterTrace : A → List (UInt64 × TypedSampleMetadata × α) → List PushedSample
  | _, [] => []
  | total, sample :: rest =>
    let (next, pushed) := counterRound value startMs endMs total sample
    pushed.toList ++ counterTrace next rest

theorem counterLoop_eq (push : σ → PushedSample → Option σ) (total : A) (out : σ)
    (samples : List (UInt64 × TypedSampleMetadata × α)) :
    counterLoop value startMs endMs push total out samples =
      (counterTrace value startMs endMs total samples).foldlM push out := by
  induction samples generalizing total out with
  | nil => rfl
  | cons sample rest ih =>
    rw [counterLoop, counterTrace]
    rcases counterRound value startMs endMs total sample with ⟨next, _ | pushed⟩
    · exact ih next out
    · simp [ih]

end Counters

theorem foldlM_pushCachedCounter (samples : List PushedSample)
    (h : CachedLabels out seriesId labels cached) :
    (samples.foldlM (pushCachedCounter seriesId) (out, cached)).map (·.1) =
      some (samples.foldl (fun out s => pushSeries out seriesId labels s) out) := by
  induction samples generalizing out cached with
  | nil => rfl
  | cons s rest ih =>
    obtain ⟨cached', hpush, hcached⟩ := pushCached_eq h s
    rw [List.foldlM_cons, pushCachedCounter, hpush]
    exact ih hcached

theorem foldlM_pushHeadCounter (env : ProjectionEnv) (baseLabels : LabelRow) (suffix : String)
    (samples : List PushedSample) (out : ProjectedSeries) :
    samples.foldlM (pushHeadCounter env baseLabels suffix) out =
      some ((samples.map (counterLabels baseLabels suffix, ·)).foldl (emit env) out) := by
  rw [List.foldl_map]
  exact List.foldlM_pure ..

section Paths
variable (env : ProjectionEnv) (baseLabels : LabelRow) (startMs endMs : UInt64)

theorem counterLoop_cached {A α : Type}
    (value : A → TypedSampleMetadata → α → A × Option ProjectedValue) (suffix : String) (total : A)
    (out : ProjectedSeries) (samples : List (UInt64 × TypedSampleMetadata × α)) :
    (counterLoop value startMs endMs
        (pushCachedCounter (env.segmentSeriesId (counterLabels baseLabels suffix))) total
        (out, some (counterLabels baseLabels suffix)) samples).map (·.1) =
      counterLoop value startMs endMs (pushHeadCounter env baseLabels suffix) total out samples := by
  rw [counterLoop_eq, counterLoop_eq, foldlM_pushHeadCounter, foldlM_pushCachedCounter _ (.inl rfl),
    List.foldl_map]
  rfl

variable (out)

theorem projectTypedCountSamples_eq_head {T : Type} [TypedCounterValue T] (values : List (UInt64 × T)) :
    projectTypedCountSamples env baseLabels startMs endMs out values =
      projectHeadTypedCountSamples env baseLabels startMs endMs out values :=
  counterLoop_cached ..

theorem projectTypedSumSamples_eq_head {T : Type} [TypedCounterValue T] (values : List (UInt64 × T)) :
    projectTypedSumSamples env baseLabels startMs endMs out values =
      projectHeadTypedSumSamples env baseLabels startMs endMs out values :=
  counterLoop_cached ..

def CachedEntry (new cached : Option CachedBucketSeries) : Prop :=
  match new, cached with
  | none, none => True
  | some new, some cached =>
    cached.le = new.le ∧ cached.seriesId = new.seriesId ∧
      ∃ labels, new.labels = some labels ∧ CachedLabels out new.seriesId labels cached.labels
  | _, _ => False

variable {out}

theorem CachedEntry.mono {new cached : Option CachedBucketSeries}
    (h : CachedEntry out new cached) (seriesId : UInt64) (labels : LabelRow) (s : PushedSample) :
    CachedEntry (pushSeries out seriesId labels s) new cached := by
  cases new with
  | none =>
    cases cached with
    | none => trivial
    | some cached => exact h.elim
  | some new =>
    cases cached with
    | none => exact h.elim
    | some cached =>
      obtain ⟨hle, hid, cachedLabels, hnew, hcached⟩ := h
      exact ⟨hle, hid, cachedLabels, hnew, hcached.mono seriesId labels s⟩

/-- The caches say what the head computes, and the series are the head's. -/
structure CacheOk (leFilter : CompiledBucketLeFilter) (s : CachedBuckets) (out : ProjectedSeries) :
    Prop where
  out_eq : s.out = out
  byBound : ∀ (bound : F64) (entry : Option CachedBucketSeries),
    s.byBound[bound.bits.toNat]? = some entry →
      CachedEntry out (newCachedBucketSeries env baseLabels leFilter bound) entry
  inf : ∀ (seriesId : UInt64) (labels : Option LabelRow), s.inf = some (seriesId, labels) →
    seriesId = env.segmentSeriesId (bucketLabels baseLabels "+Inf") ∧
      CachedLabels out seriesId (bucketLabels baseLabels "+Inf") labels

variable {env baseLabels}

theorem cachedEntry_new (leFilter : CompiledBucketLeFilter) (out : ProjectedSeries) (bound : F64) :
    CachedEntry out (newCachedBucketSeries env baseLabels leFilter bound)
      (newCachedBucketSeries env baseLabels leFilter bound) := by
  unfold newCachedBucketSeries
  cases (Bucket.bound bound).kept env leFilter with
  | none => trivial
  | some le => exact ⟨rfl, rfl, _, rfl, .inl rfl⟩

variable {leFilter : CompiledBucketLeFilter}

theorem CachedEntry.le_eq {bound : F64} {entry : Option CachedBucketSeries}
    (h : CachedEntry out (newCachedBucketSeries env baseLabels leFilter bound) entry) :
    entry.map (·.le) = (Bucket.bound bound).kept env leFilter := by
  unfold newCachedBucketSeries at h
  cases hkept : (Bucket.bound bound).kept env leFilter with
  | none =>
    rw [hkept] at h
    cases entry with
    | none => rfl
    | some cached => exact h.elim
  | some le =>
    rw [hkept] at h
    cases entry with
    | none => exact h.elim
    | some cached => exact congrArg some h.1

theorem F64.eq_of_toNat_bits {a b : F64} (h : a.bits.toNat = b.bits.toNat) : a = b := by
  obtain ⟨a⟩ := a
  obtain ⟨b⟩ := b
  exact congrArg F64.mk (UInt64.toNat_inj.mp h)

variable {s : CachedBuckets}

section
variable (h : CacheOk env baseLabels leFilter s out)
include h

theorem CacheOk.series (bucket : Bucket) :
    ∃ s', cachedBucketSeries env baseLabels leFilter s bucket = (s', bucket.kept env leFilter) ∧
      CacheOk env baseLabels leFilter s' out ∧
      ∀ bound, bucket = .bound bound → (s'.byBound[bound.bits.toNat]?).isSome := by
  cases bucket with
  | inf => exact ⟨s, rfl, h, fun _ hne => by cases hne⟩
  | bound bound =>
    unfold cachedBucketSeries
    cases hentry : s.byBound[bound.bits.toNat]? with
    | some entry =>
      refine ⟨s, ?_, h, fun b hb => ?_⟩
      · simp [hentry, (h.byBound bound entry hentry).le_eq]
      · cases hb
        rw [hentry]
        rfl
    | none =>
      have hnew : CachedEntry out (newCachedBucketSeries env baseLabels leFilter bound)
          (newCachedBucketSeries env baseLabels leFilter bound) := cachedEntry_new ..
      let entry := newCachedBucketSeries env baseLabels leFilter bound
      refine ⟨{ s with byBound := s.byBound.insert bound.bits.toNat entry }, ?_,
        ⟨h.out_eq, ?_, h.inf⟩, fun b hb => ?_⟩
      · simp [hentry, hnew.le_eq, entry]
      · intro b entry hb
        rw [Std.TreeMap.getElem?_insert] at hb
        split at hb
        · rename_i heq
          obtain rfl := F64.eq_of_toNat_bits (compare_eq_iff_eq.mp heq)
          cases hb
          exact hnew
        · exact h.byBound b entry hb
      · cases hb
        rw [Std.TreeMap.getElem?_insert_self]
        rfl

theorem CacheOk.pushed (seriesId : UInt64)
    (labels : LabelRow) (pushed : PushedSample) :
    CacheOk env baseLabels leFilter { s with out := pushSeries out seriesId labels pushed }
      (pushSeries out seriesId labels pushed) where
  out_eq := rfl
  byBound bound entry hentry := (h.byBound bound entry hentry).mono seriesId labels pushed
  inf infId infLabels hinf :=
    (h.inf infId infLabels hinf).imp_right fun hcached => hcached.mono seriesId labels pushed

theorem CacheOk.push_bound {bound : F64}
    {le : String} (hle : (Bucket.bound bound).kept env leFilter = some le)
    (hbound : (s.byBound[bound.bits.toNat]?).isSome) (pushed : PushedSample) :
    ∃ s', pushCachedBucket env baseLabels s (.bound bound) le pushed = some s' ∧
      CacheOk env baseLabels leFilter s'
        (pushProjectedSample env out (bucketLabels baseLabels le) pushed) := by
  obtain ⟨entry, hentry⟩ := Option.isSome_iff_exists.mp hbound
  have hcached := h.byBound bound entry hentry
  rw [newCachedBucketSeries, hle] at hcached
  cases entry with
  | none => exact hcached.elim
  | some cached =>
    obtain ⟨hcle, hid, labels, hlabels, hok⟩ := hcached
    obtain rfl := Option.some.inj hlabels
    obtain ⟨labels', hpush, hok'⟩ := pushCached_eq hok pushed
    refine ⟨⟨_, s.byBound.insert bound.bits.toNat (some { cached with labels := labels' }), s.inf⟩,
      ?_, rfl, ?_, (h.pushed _ _ pushed).inf⟩
    · simp only [pushCachedBucket, hentry, hid, h.out_eq]
      rw [hpush]
      rfl
    intro b entry hb
    rw [Std.TreeMap.getElem?_insert] at hb
    split at hb
    · rename_i heq
      obtain rfl := F64.eq_of_toNat_bits (compare_eq_iff_eq.mp heq)
      cases hb
      rw [newCachedBucketSeries, hle]
      exact ⟨hcle, hid, _, rfl, hok'⟩
    · exact (h.pushed _ _ pushed).byBound b entry hb

theorem CacheOk.push_inf (pushed : PushedSample) :
    ∃ s', pushCachedBucket env baseLabels s .inf "+Inf" pushed = some s' ∧
      CacheOk env baseLabels leFilter s'
        (pushProjectedSample env out (bucketLabels baseLabels "+Inf") pushed) := by
  let infLabels := bucketLabels baseLabels "+Inf"
  obtain ⟨seriesId, labels, hinf, hid, hok⟩ : ∃ seriesId labels,
      s.inf.getD (env.segmentSeriesId infLabels, some infLabels) = (seriesId, labels) ∧
        seriesId = env.segmentSeriesId infLabels ∧ CachedLabels out seriesId infLabels labels := by
    cases hinf : s.inf with
    | none => exact ⟨_, _, rfl, rfl, .inl rfl⟩
    | some cached => exact ⟨cached.1, cached.2, rfl, h.inf cached.1 cached.2 hinf⟩
  subst hid
  obtain ⟨labels', hpush, hok'⟩ := pushCached_eq hok pushed
  refine ⟨⟨_, s.byBound, some (env.segmentSeriesId infLabels, labels')⟩, ?_, rfl,
    (h.pushed _ _ pushed).byBound, ?_⟩
  · simp only [pushCachedBucket, h.out_eq]
    rw [hinf, hpush]
    rfl
  · intro infId cached heq
    cases heq
    exact ⟨rfl, hok'⟩

theorem CacheOk.push {bucket : Bucket}
    {le : String} (hle : bucket.kept env leFilter = some le)
    (hbound : ∀ bound, bucket = .bound bound → (s.byBound[bound.bits.toNat]?).isSome)
    (pushed : PushedSample) :
    ∃ s', pushCachedBucket env baseLabels s bucket le pushed = some s' ∧
      CacheOk env baseLabels leFilter s'
        (pushProjectedSample env out (bucketLabels baseLabels le) pushed) := by
  cases bucket with
  | bound bound => exact h.push_bound hle (hbound bound rfl) pushed
  | inf =>
    unfold Bucket.kept at hle
    split at hle
    · obtain rfl := Option.some.inj hle
      exact h.push_inf pushed
    · cases hle

end

variable (env baseLabels) in
theorem bucketsLoop_cached (leFilter : CompiledBucketLeFilter) (timestampMs : UInt64)
    (metadata : TypedSampleMetadata) (emitted : Bool) (buckets : List (Bucket × UInt64))
    (totals : BucketTotals)
    (h : CacheOk env baseLabels leFilter s out) :
    ∃ totals' s' out',
      bucketsLoop env.ops (cachedBucketSeries env baseLabels leFilter)
          (pushCachedBucket env baseLabels) timestampMs metadata emitted totals s buckets =
        some (totals', s') ∧
      bucketsLoop env.ops (headBucketSeries env leFilter) (pushHeadBucket env baseLabels)
          timestampMs metadata emitted totals out buckets = some (totals', out') ∧
      CacheOk env baseLabels leFilter s' out' := by
  induction buckets generalizing totals s out with
  | nil => exact ⟨totals, s, out, rfl, rfl, h⟩
  | cons entry rest ih =>
    obtain ⟨bucket, raw⟩ := entry
    obtain ⟨s₁, hseries, hok, hbound⟩ := h.series bucket
    rw [bucketsLoop, bucketsLoop, hseries, headBucketSeries]
    cases hle : bucket.kept env leFilter with
    | none => exact ih totals hok
    | some le =>
      dsimp only
      cases emitted with
      | false => exact ih _ hok
      | true =>
        obtain ⟨s₂, hpush, hok₂⟩ := hok.push hle hbound (bucketPushed timestampMs metadata raw
          (histogramProjectedBucketValue env.ops totals metadata raw le).2.1
          (histogramProjectedBucketValue env.ops totals metadata raw le).2.2)
        rw [if_pos rfl, if_pos rfl, hpush]
        exact ih _ hok₂

theorem cacheOk_empty (leFilter : CompiledBucketLeFilter) (out : ProjectedSeries) :
    CacheOk env baseLabels leFilter ⟨out, {}, none⟩ out where
  out_eq := rfl
  byBound _ _ h := by
    cases h
  inf _ _ h := by cases h

variable (env baseLabels) in
theorem bucketSamplesLoop_cached {T : Type} (buckets : T → List (Bucket × UInt64))
    (metadata : T → TypedSampleMetadata) (leFilter : CompiledBucketLeFilter)
    (values : List (UInt64 × T)) (totals : BucketTotals)
    (h : CacheOk env baseLabels leFilter s out) :
    (bucketSamplesLoop env.ops (cachedBucketSeries env baseLabels leFilter)
        (pushCachedBucket env baseLabels) buckets metadata startMs endMs totals s values).map
        (·.out) =
      bucketSamplesLoop env.ops (headBucketSeries env leFilter) (pushHeadBucket env baseLabels)
        buckets metadata startMs endMs totals out values := by
  induction values generalizing totals s out with
  | nil => exact congrArg some h.out_eq
  | cons sample rest ih =>
    obtain ⟨ts, value⟩ := sample
    rw [bucketSamplesLoop, bucketSamplesLoop]
    split
    · exact ih totals h
    obtain ⟨totals', s', out', hcached, hhead, hok⟩ := bucketsLoop_cached env baseLabels leFilter
      ts (metadata value) (ts ≥ startMs) (buckets value) totals h
    rw [hcached, hhead]
    exact ih totals' hok

theorem projectHistogramBucketSamples_eq_head (leFilter : CompiledBucketLeFilter)
    (out : ProjectedSeries) (values : List (UInt64 × HistogramValue)) :
    projectHistogramBucketSamples env baseLabels startMs endMs leFilter out values =
      projectHeadHistogramBucketSamples env baseLabels startMs endMs leFilter out values :=
  bucketSamplesLoop_cached env baseLabels startMs endMs _ _ leFilter values .empty
    (cacheOk_empty leFilter out)

end Paths

end Chronoxide
