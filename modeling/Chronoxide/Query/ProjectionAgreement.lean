import Chronoxide.Hash
import Chronoxide.Query.ProjectionCache

/-! The head and a sealed chunk project the same series from the same samples: both push one
sequence of samples into a map of series, which for counts and sums is also that of the scalar
lane. -/

namespace Chronoxide
open KeepLast OrderedMap List

def Emits (env : ProjectionEnv) (f : ProjectedSeries → Option ProjectedSeries)
    (trace : List (LabelRow × PushedSample)) : Prop :=
  ∀ out, f out = some (trace.foldl (emit env) out)

variable {T : Type}

section Traces
variable {env : ProjectionEnv} {baseLabels : LabelRow} {startMs endMs : UInt64}

theorem Emits.comp {f g : ProjectedSeries → Option ProjectedSeries}
    {trace trace' : List (LabelRow × PushedSample)} (hf : Emits env f trace)
    (hg : Emits env g trace') : Emits env (fun out => (f out).bind g) (trace ++ trace') := by
  intro out
  beta_reduce
  rw [hf, foldl_append]
  exact hg _

theorem projectHeadTypedCountSamples_emits [TypedCounterValue T] (values : List (UInt64 × T)) :
    Emits env (fun out => projectHeadTypedCountSamples env baseLabels startMs endMs out values)
      ((counterTrace (u64CounterValue env.ops) startMs endMs ⟨0, false⟩ (countSamples values)).map
        (counterLabels baseLabels "_count", ·)) := by
  intro out
  beta_reduce
  rw [projectHeadTypedCountSamples, counterLoop_eq, foldlM_pushHeadCounter]

theorem projectHeadTypedSumSamples_emits [TypedCounterValue T] (values : List (UInt64 × T)) :
    Emits env (fun out => projectHeadTypedSumSamples env baseLabels startMs endMs out values)
      ((counterTrace (optionalF64CounterValue env.ops) startMs endMs ⟨F64.zero, false⟩
        (sumSamples values)).map (counterLabels baseLabels "_sum", ·)) := by
  intro out
  beta_reduce
  rw [projectHeadTypedSumSamples, counterLoop_eq, foldlM_pushHeadCounter]

variable (env baseLabels) in
theorem bucketsLoop_emits (leFilter : CompiledBucketLeFilter) (timestampMs : UInt64)
    (metadata : TypedSampleMetadata) (emitted : Bool) (buckets : List (Bucket × UInt64))
    (totals : BucketTotals) :
    ∃ (totals' : BucketTotals) (trace : List (LabelRow × PushedSample)), ∀ out,
      bucketsLoop env.ops (headBucketSeries env leFilter) (pushHeadBucket env baseLabels)
          timestampMs metadata emitted totals out buckets =
        some (totals', trace.foldl (emit env) out) := by
  induction buckets generalizing totals with
  | nil => exact ⟨totals, [], fun _ => rfl⟩
  | cons entry rest ih =>
    obtain ⟨bucket, raw⟩ := entry
    cases hle : bucket.kept env leFilter with
    | none =>
      obtain ⟨totals', trace, htrace⟩ := ih totals
      refine ⟨totals', trace, fun out => ?_⟩
      rw [bucketsLoop, headBucketSeries, hle]
      exact htrace out
    | some le =>
      obtain ⟨totals', trace, htrace⟩ :=
        ih (histogramProjectedBucketValue env.ops totals metadata raw le).1
      let pushed := bucketPushed timestampMs metadata raw
        (histogramProjectedBucketValue env.ops totals metadata raw le).2.1
        (histogramProjectedBucketValue env.ops totals metadata raw le).2.2
      cases emitted with
      | false =>
        refine ⟨totals', trace, fun out => ?_⟩
        rw [bucketsLoop, headBucketSeries, hle]
        exact htrace out
      | true =>
        refine ⟨totals', (bucketLabels baseLabels le, pushed) :: trace, fun out => ?_⟩
        rw [bucketsLoop, headBucketSeries, hle]
        exact htrace _

variable (env baseLabels startMs endMs) in
theorem bucketSamplesLoop_emits (buckets : T → List (Bucket × UInt64))
    (metadata : T → TypedSampleMetadata) (leFilter : CompiledBucketLeFilter)
    (values : List (UInt64 × T)) (totals : BucketTotals) :
    ∃ trace, Emits env (fun out =>
      bucketSamplesLoop env.ops (headBucketSeries env leFilter) (pushHeadBucket env baseLabels)
        buckets metadata startMs endMs totals out values) trace := by
  induction values generalizing totals with
  | nil => exact ⟨[], fun _ => rfl⟩
  | cons sample rest ih =>
    obtain ⟨ts, value⟩ := sample
    by_cases hend : ts > endMs
    · obtain ⟨trace, htrace⟩ := ih totals
      refine ⟨trace, fun out => ?_⟩
      beta_reduce
      rw [bucketSamplesLoop, if_pos hend]
      exact htrace out
    obtain ⟨totals', trace, htrace⟩ := bucketsLoop_emits env baseLabels leFilter ts
      (metadata value) (ts ≥ startMs) (buckets value) totals
    obtain ⟨trace', htrace'⟩ := ih totals'
    refine ⟨trace ++ trace', fun out => ?_⟩
    beta_reduce
    rw [bucketSamplesLoop, if_neg hend, htrace, foldl_append]
    exact htrace' _

theorem foldl_emits {α : Type} {step : ProjectedSeries → α → ProjectedSeries} (l : List α)
    (h : ∀ a ∈ l, ∃ trace : List (LabelRow × PushedSample),
      ∀ out, step out a = trace.foldl (emit env) out) :
    ∃ trace : List (LabelRow × PushedSample),
      ∀ out, l.foldl step out = trace.foldl (emit env) out := by
  induction l with
  | nil => exact ⟨[], fun _ => rfl⟩
  | cons a rest ih =>
    obtain ⟨trace, htrace⟩ := h a mem_cons_self
    obtain ⟨trace', htrace'⟩ := ih fun b hb => h b (mem_cons_of_mem _ hb)
    refine ⟨trace ++ trace', fun out => ?_⟩
    rw [foldl_cons, htrace, htrace', foldl_append]

variable (env baseLabels startMs endMs) in
theorem projectSummaryQuantileSamples_emits (quantile : Option String)
    (values : List (UInt64 × SummaryValue)) :
    ∃ trace, Emits env (fun out => some (projectSummaryQuantileSamples env baseLabels startMs endMs
      quantile out values)) trace := by
  obtain ⟨trace, htrace⟩ : ∃ trace : List (LabelRow × PushedSample), ∀ out,
      projectSummaryQuantileSamples env baseLabels startMs endMs quantile out values =
        trace.foldl (emit env) out := by
    apply foldl_emits
    rintro ⟨ts, value⟩ -
    by_cases hrange : (decide (ts < startMs) || decide (ts > endMs)) = true
    · exact ⟨[], fun out => if_pos hrange⟩
    simp only [if_neg hrange]
    apply foldl_emits
    intro q _
    by_cases hfilter : quantile.any (· ≠ env.formatPromqlFloatLabel q.quantile) = true
    · exact ⟨[], fun out => if_pos hfilter⟩
    · exact ⟨[(_, _)], fun out => if_neg hfilter⟩
  exact ⟨trace, fun out => congrArg some (htrace out)⟩

end Traces

variable (env : ProjectionEnv)

def emitKey (e : LabelRow × PushedSample) : Nat :=
  (env.segmentSeriesId e.1).toNat

def pushEntry (entry : Option SegmentQueryResult) (e : LabelRow × PushedSample)
    : Option SegmentQueryResult :=
  some ((entry.getD (.new (env.segmentSeriesId e.1) e.1)).push e.2)

variable (trace : List (LabelRow × PushedSample))

theorem getElem?_foldl_emit (out : ProjectedSeries) (k : Nat) : (trace.foldl (emit env) out)[k]? =
      (trace.filter fun e => emitKey env e = k).foldl (pushEntry env) out[k]? := by
  induction trace generalizing out with
  | nil => rfl
  | cons e rest ih =>
    rw [foldl_cons, ih, emit, pushProjectedSample, getElem?_pushSeries]
    by_cases hk : emitKey env e = k
    · rw [filter_cons_of_pos (by simpa using hk), foldl_cons]
      subst hk
      rw [emitKey, if_pos rfl]
      rfl
    · rw [filter_cons_of_neg (by simpa using hk)]
      rw [emitKey] at hk
      rw [if_neg hk]

theorem isSome_foldl_pushEntry (entry : Option SegmentQueryResult) (h : trace ≠ []) :
    (trace.foldl (pushEntry env) entry).isSome := by
  induction trace using reverseRecOn with
  | nil => exact absurd rfl h
  | append_singleton rest e _ =>
    rw [foldl_concat]
    rfl

variable (r : SegmentQueryResult)

theorem push_seriesId (s : PushedSample) : (r.push s).seriesId = r.seriesId := by
  obtain ⟨ts, value, typed, interval⟩ := s
  cases typed <;> cases interval <;> rfl

def Keyed (out : ProjectedSeries) : Prop :=
  ∀ (k : Nat) (r : SegmentQueryResult), out[k]? = some r → r.seriesId.toNat = k

theorem Keyed.foldl_emit {env : ProjectionEnv} {out : ProjectedSeries} (h : Keyed out)
    (trace : List (LabelRow × PushedSample)) : Keyed (trace.foldl (emit env) out) := by
  induction trace generalizing out with
  | nil => exact h
  | cons e rest ih =>
    refine ih fun k r hr => ?_
    rw [emit, pushProjectedSample, getElem?_pushSeries] at hr
    split at hr
    · rename_i hk
      obtain rfl := Option.some.inj hr
      rw [push_seriesId]
      cases hout : out[(env.segmentSeriesId e.1).toNat]? with
      | none => exact hk
      | some r' => exact (h _ r' hout).trans hk
    · exact h k r hr

theorem keyed_empty : Keyed {} := by
  intro k r hr
  cases hr

theorem foldl_insert_seriesId (l : List (Nat × SegmentQueryResult)) (out : ProjectedSeries)
    (h : ∀ e ∈ l, e.2.seriesId.toNat = e.1) :
    (l.map (·.2)).foldl (fun out r => out.insert r.seriesId.toNat r) out =
      insertAll out l := by
  rw [foldl_map, insertAll]
  apply foldl_ext
  intro out e he
  rw [h e he]

variable {trace : List (LabelRow × PushedSample)}

theorem insert_results {env : ProjectionEnv} {out : ProjectedSeries}
    (hapart : ∀ e ∈ trace, out[emitKey env e]? = none) :
    (((trace.foldl (emit env) {}).toList.map (·.2)).foldl
        (fun out r => out.insert r.seriesId.toNat r) out).toList =
      (trace.foldl (emit env) out).toList := by
  have hkeyed : ∀ e ∈ (trace.foldl (emit env) {}).toList, e.2.seriesId.toNat = e.1 := by
    intro e he
    exact keyed_empty.foldl_emit trace e.1 e.2
      (Std.TreeMap.mem_toList_iff_getElem?_eq_some.mp he)
  rw [foldl_insert_seriesId _ _ hkeyed]
  apply (toList_increasing _).ext (toList_increasing _)
  intro k
  rw [last?_toList_insertAll, last?_toList, last?_toList,
    last?_toList, getElem?_foldl_emit, getElem?_foldl_emit, Std.TreeMap.getElem?_emptyc]
  by_cases hnil : trace.filter (fun e => emitKey env e = k) = []
  · rw [hnil]
    rfl
  obtain ⟨e, he⟩ := exists_mem_of_ne_nil _ hnil
  obtain ⟨hmem, hkey⟩ := mem_filter.mp he
  have hout : out[k]? = none := by
    rw [← of_decide_eq_true hkey]
    exact hapart e hmem
  rw [hout]
  exact Option.or_none

section Agreement
variable {env : ProjectionEnv} {baseLabels : LabelRow} {startMs endMs : UInt64}

theorem getElem?_foldl_emit_of_ne {k : Nat}
    (h : ∀ e ∈ trace, emitKey env e ≠ k) : (trace.foldl (emit env) {})[k]? = none := by
  have hnil : trace.filter (fun e => emitKey env e = k) = [] :=
    filter_eq_nil_iff.mpr fun e he => by simpa using h e he
  rw [getElem?_foldl_emit, hnil, Std.TreeMap.getElem?_emptyc]
  rfl

theorem exists_result_of_mem {e : LabelRow × PushedSample} (he : e ∈ trace) :
    ∃ r ∈ (trace.foldl (emit env) {}).toList.map (·.2), r.seriesId.toNat = emitKey env e := by
  have hne : trace.filter (fun e' => emitKey env e' = emitKey env e) ≠ [] :=
    ne_nil_of_mem (mem_filter.mpr ⟨he, decide_eq_true rfl⟩)
  have hsome := isSome_foldl_pushEntry env _ ({} : ProjectedSeries)[emitKey env e]? hne
  rw [← getElem?_foldl_emit] at hsome
  obtain ⟨r, hr⟩ := Option.isSome_iff_exists.mp hsome
  refine ⟨r, ?_, keyed_empty.foldl_emit trace _ r hr⟩
  exact mem_map.mpr ⟨_, Std.TreeMap.mem_toList_iff_getElem?_eq_some.mpr hr, rfl⟩

def IdsApart (env : ProjectionEnv) (baseLabels : LabelRow) (results : List SegmentQueryResult) :
    Prop :=
  ∀ r ∈ results, r.seriesId ≠ env.segmentSeriesId (counterLabels baseLabels "_count") ∧
    r.seriesId ≠ env.segmentSeriesId (counterLabels baseLabels "_sum")

variable (env baseLabels startMs endMs) (values : List (UInt64 × T))

theorem counters_emit [TypedCounterValue T] : ∃ trace, Emits env (fun out =>
        (projectHeadTypedCountSamples env baseLabels startMs endMs out values).bind fun out =>
          projectHeadTypedSumSamples env baseLabels startMs endMs out values) trace ∧
      ∀ e ∈ trace, e.1 = counterLabels baseLabels "_count" ∨ e.1 = counterLabels baseLabels "_sum" := by
  refine ⟨_, (projectHeadTypedCountSamples_emits values).comp
    (projectHeadTypedSumSamples_emits values), fun e he => ?_⟩
  rcases mem_append.mp he with he | he <;> obtain ⟨s, -, rfl⟩ := mem_map.mp he
  · exact .inl rfl
  · exact .inr rfl

def headCounters {T : Type} [TypedCounterValue T] (values : List (UInt64 × T)) :
    Option ProjectedSeries := do
  let out ← projectHeadTypedCountSamples env baseLabels startMs endMs {} values
  projectHeadTypedSumSamples env baseLabels startMs endMs out values

variable (totals : ScalarTotals)

def ScalarTotals.count : DeltaTotal UInt64 :=
  ⟨totals.deltaCountAccumulator, totals.deltaFragmentStarted⟩

def ScalarTotals.sum : DeltaTotal F64 :=
  ⟨totals.deltaSumAccumulator, totals.deltaFragmentStarted⟩

theorem projectTypedScalarSample_count (ts : UInt64) (metadata : TypedSampleMetadata) (raw : UInt64)
    :
    (projectTypedScalarSample env startMs endMs totals ⟨ts, metadata, some (.count raw)⟩).map
        ScalarTotals.count id =
      counterRound (u64CounterValue env.ops) startMs endMs totals.count (ts, metadata, raw) := by
  unfold projectTypedScalarSample counterRound u64CounterValue
  by_cases hend : ts > endMs
  · simp [if_pos hend, id]
  by_cases hstale : metadata.isStale = true <;> by_cases hdelta : metadata.temporality = .delta <;>
    simp [hend, hstale, hdelta, ScalarTotals.count, ProjectedValue.pushed]

theorem projectTypedScalarSample_sum (ts : UInt64) (metadata : TypedSampleMetadata)
    (raw : Option F64) :
    (projectTypedScalarSample env startMs endMs totals ⟨ts, metadata, raw.map .sum⟩).map
        ScalarTotals.sum id =
      counterRound (optionalF64CounterValue env.ops) startMs endMs totals.sum
        (ts, metadata, raw) := by
  unfold projectTypedScalarSample counterRound optionalF64CounterValue
  by_cases hend : ts > endMs
  · simp [if_pos hend, id]
  cases raw <;> by_cases hstale : metadata.isStale = true <;>
    by_cases hdelta : metadata.temporality = .delta <;>
      simp [hend, hstale, hdelta, ScalarTotals.sum, ProjectedValue.pushed]

theorem scalarSamplesLoop_eq {A α : Type}
    {value : A → TypedSampleMetadata → α → A × Option ProjectedValue} {total : ScalarTotals → A}
    {scalar : α → Option ChunkScalarValue}
    (h : ∀ (totals : ScalarTotals) (ts : UInt64) (metadata : TypedSampleMetadata) (raw : α),
      (projectTypedScalarSample env startMs endMs totals ⟨ts, metadata, scalar raw⟩).map total id =
        counterRound value startMs endMs (total totals) (ts, metadata, raw))
    (samples : List (UInt64 × TypedSampleMetadata × α)) (totals : ScalarTotals)
    (result : SegmentQueryResult) :
    scalarSamplesLoop env startMs endMs totals result
        (samples.map fun (ts, metadata, raw) => ⟨ts, metadata, scalar raw⟩) =
      result.pushAll (counterTrace value startMs endMs (total totals) samples) := by
  induction samples generalizing totals result with
  | nil => rfl
  | cons sample rest ih =>
    obtain ⟨ts, metadata, raw⟩ := sample
    rw [map_cons, scalarSamplesLoop, counterTrace, ← h]
    rcases projectTypedScalarSample env startMs endMs totals ⟨ts, metadata, scalar raw⟩ with
      ⟨totals', _ | pushed⟩
    · exact ih totals' result
    · exact ih totals' (result.push pushed)

theorem push_samples (s : PushedSample) :
    (r.push s).samples = r.samples ++ [(s.timestampMs, s.value)] := by
  obtain ⟨ts, value, typed, interval⟩ := s
  cases typed <;> cases interval <;> rfl

theorem pushAll_samples (samples : List PushedSample) :
    (r.pushAll samples).samples = r.samples ++ samples.map fun s => (s.timestampMs, s.value) := by
  induction samples generalizing r with
  | nil => exact (append_nil _).symm
  | cons s rest ih =>
    refine (ih (r.push s)).trans ?_
    rw [push_samples, append_assoc]
    rfl

variable {env} in
theorem foldl_pushEntry_one (labels : LabelRow) (samples : List PushedSample)
    (r : SegmentQueryResult) :
    (samples.map (labels, ·)).foldl (pushEntry env) (some r) = some (r.pushAll samples) := by
  induction samples generalizing r with
  | nil => rfl
  | cons s rest ih => exact ih (r.push s)

variable {env} in
theorem toList_foldl_emit_one (labels : LabelRow) (samples : List PushedSample) :
    ((samples.map (labels, ·)).foldl (emit env) {}).toList.map (·.2) =
      (let result := (SegmentQueryResult.new (env.segmentSeriesId labels) labels).pushAll samples
      if result.samples.isEmpty then [] else [result]) := by
  cases samples with
  | nil => rfl
  | cons s rest =>
    let k := (env.segmentSeriesId labels).toNat
    let result :=
      (SegmentQueryResult.new (env.segmentSeriesId labels) labels).pushAll (s :: rest)
    have htoList : (((s :: rest).map (labels, ·)).foldl (emit env) {}).toList = [(k, result)] := by
      apply (toList_increasing _).ext (pairwise_singleton ..)
      intro k'
      rw [last?_toList, getElem?_foldl_emit, Std.TreeMap.getElem?_emptyc]
      by_cases hk : k = k'
      · have hall : ((s :: rest).map (labels, ·)).filter (fun e => emitKey env e = k') =
            (s :: rest).map (labels, ·) := by
          refine filter_eq_self.mpr fun e he => ?_
          obtain ⟨s', -, rfl⟩ := mem_map.mp he
          exact decide_eq_true hk
        rw [hall, map_cons, foldl_cons, pushEntry, foldl_pushEntry_one]
        subst hk
        have hlast : last? Prod.fst k [(k, result)] = some (k, result) :=
          last?_cons_self (k, result) []
        exact hlast.symm
      have hnone : ((s :: rest).map (labels, ·)).filter (fun e => emitKey env e = k') = [] := by
        refine filter_eq_nil_iff.mpr fun e he => ?_
        obtain ⟨s', -, rfl⟩ := mem_map.mp he
        exact fun h => hk (of_decide_eq_true h)
      rw [hnone, last?_cons_of_ne hk]
      rfl
    have hne : result.samples.isEmpty = false := by
      rw [pushAll_samples]
      rfl
    rw [htoList]
    exact (if_neg (by rw [hne]; exact Bool.false_ne_true)).symm

def ChunkScalarProjection.projection : ChunkScalarProjection → SegmentProjection
  | .count => .count
  | .sum => .sum

theorem head_count [TypedCounterValue T] :
    (projectHeadTypedCountSamples env baseLabels startMs endMs {} values).map
        (fun out => out.toList.map (·.2)) =
      some (projectScalarChunk env baseLabels startMs endMs .count
        (values.map fun (ts, v) =>
          ⟨ts, TypedCounterValue.metadata v, some (.count (TypedCounterValue.count v))⟩)) := by
  have hloop := scalarSamplesLoop_eq env startMs endMs
    (projectTypedScalarSample_count env startMs endMs) (countSamples values)
  rw [countSamples, map_map] at hloop
  rw [projectHeadTypedCountSamples, counterLoop_eq, foldlM_pushHeadCounter, Option.map_some,
    toList_foldl_emit_one, projectScalarChunk]
  exact congrArg (fun r : SegmentQueryResult => some (if r.samples.isEmpty then [] else [r]))
    (hloop ⟨0, F64.zero, false⟩ _).symm

theorem head_sum [TypedCounterValue T] :
    (projectHeadTypedSumSamples env baseLabels startMs endMs {} values).map
        (fun out => out.toList.map (·.2)) =
      some (projectScalarChunk env baseLabels startMs endMs .sum
        (values.map fun (ts, v) =>
          ⟨ts, TypedCounterValue.metadata v, (TypedCounterValue.sum v).map .sum⟩)) := by
  have hloop := scalarSamplesLoop_eq env startMs endMs
    (projectTypedScalarSample_sum env startMs endMs) (sumSamples values)
  rw [sumSamples, map_map] at hloop
  rw [projectHeadTypedSumSamples, counterLoop_eq, foldlM_pushHeadCounter, Option.map_some,
    toList_foldl_emit_one, projectScalarChunk]
  exact congrArg (fun r : SegmentQueryResult => some (if r.samples.isEmpty then [] else [r]))
    (hloop ⟨0, F64.zero, false⟩ _).symm

theorem head_scalar (scalar : ChunkScalarProjection) (samples : ChunkSamples) :
    projectHeadSeriesSamples env baseLabels startMs endMs scalar.projection samples =
      .ok (some (projectScalarChunk env baseLabels startMs endMs scalar
        (samples.project scalar))) := by
  cases scalar with
  | count =>
    cases samples with
    | float values => rfl
    | int64 values => rfl
    | histogram values => exact congrArg Except.ok (head_count _ _ _ _ values)
    | exponentialHistogram values => exact congrArg Except.ok (head_count _ _ _ _ values)
    | summary values => exact congrArg Except.ok (head_count _ _ _ _ values)
  | sum =>
    cases samples with
    | float values => rfl
    | int64 values => rfl
    | histogram values => exact congrArg Except.ok (head_sum _ _ _ _ values)
    | exponentialHistogram values => exact congrArg Except.ok (head_sum _ _ _ _ values)
    | summary values => exact congrArg Except.ok (head_sum _ _ _ _ values)

def PathsAgree (sealed head : Except IoError (Option (List SegmentQueryResult))) : Prop :=
  sealed = head ∧ ∀ out, head = .ok out → out.isSome

theorem PathsAgree.of_emits {env : ProjectionEnv} {f : ProjectedSeries → Option ProjectedSeries}
    (h : Emits env f trace) {sealed head : Except IoError (Option (List SegmentQueryResult))}
    (hsealed : sealed = .ok ((f {}).map fun out => out.toList.map (·.2)))
    (hhead : head = .ok ((f {}).map fun out => out.toList.map (·.2))) : PathsAgree sealed head := by
  refine ⟨hsealed.trans hhead.symm, fun out hout => ?_⟩
  rw [hhead, h] at hout
  cases hout
  rfl

theorem PathsAgree.error (e : IoError) : PathsAgree (.error e) (.error e) :=
  ⟨rfl, fun _ h => by cases h⟩

theorem PathsAgree.nothing : PathsAgree (.ok (some [])) (.ok (some [])) :=
  ⟨rfl, fun _ h => by cases h; rfl⟩

theorem count_agrees [TypedCounterValue T] : PathsAgree
      (.ok ((projectTypedCountSamples env baseLabels startMs endMs {} values).map
        fun out => out.toList.map (·.2)))
      (.ok ((projectHeadTypedCountSamples env baseLabels startMs endMs {} values).map
        fun out => out.toList.map (·.2))) :=
  .of_emits (projectHeadTypedCountSamples_emits values)
    (by rw [projectTypedCountSamples_eq_head]) rfl

theorem sum_agrees [TypedCounterValue T] : PathsAgree
      (.ok ((projectTypedSumSamples env baseLabels startMs endMs {} values).map
        fun out => out.toList.map (·.2)))
      (.ok ((projectHeadTypedSumSamples env baseLabels startMs endMs {} values).map
        fun out => out.toList.map (·.2))) :=
  .of_emits (projectHeadTypedSumSamples_emits values)
    (by rw [projectTypedSumSamples_eq_head]) rfl

theorem histogramBucket_agrees (le : BucketLeFilter) (boundaries : List F64)
    (samples : ChunkSamples) :
    PathsAgree
      (projectSealedSeriesSamples env baseLabels startMs endMs (.histogramBucket le boundaries)
        samples)
      (projectHeadSeriesSamples env baseLabels startMs endMs (.histogramBucket le boundaries)
        samples) := by
  cases samples with
  | float values => exact .nothing
  | int64 values => exact .nothing
  | summary values => exact .nothing
  | histogram values =>
    simp only [projectSealedSeriesSamples, projectChunkSamples, projectHeadSeriesSamples,
      projectHeadSelected]
    cases compileBucketLeFilter env le with
    | error e => exact .error e
    | ok leFilter =>
      obtain ⟨trace, htrace⟩ := bucketSamplesLoop_emits env baseLabels startMs endMs
        HistogramValue.buckets (·.metadata) leFilter values .empty
      refine .of_emits htrace (congrArg Except.ok ?_) rfl
      rw [projectHistogramBucketSamples_eq_head]
      rfl
  | exponentialHistogram values =>
    simp only [projectSealedSeriesSamples, projectChunkSamples, projectHeadSeriesSamples,
      projectHeadSelected]
    cases compileBucketLeFilter env le with
    | error e => exact .error e
    | ok leFilter =>
      obtain ⟨trace, htrace⟩ := bucketSamplesLoop_emits env baseLabels startMs endMs
        (ExponentialHistogramValue.buckets env boundaries) (·.metadata) leFilter values .empty
      exact .of_emits htrace rfl rfl

theorem summaryQuantile_agrees (quantile : Option String) (samples : ChunkSamples) :
    PathsAgree
      (projectSealedSeriesSamples env baseLabels startMs endMs (.summaryQuantile quantile) samples)
      (projectHeadSeriesSamples env baseLabels startMs endMs (.summaryQuantile quantile)
        samples) := by
  cases samples with
  | summary values =>
    obtain ⟨trace, htrace⟩ :=
      projectSummaryQuantileSamples_emits env baseLabels startMs endMs quantile values
    exact .of_emits htrace rfl rfl
  | _ => exact .nothing

theorem Emits.results {env : ProjectionEnv} {f : ProjectedSeries → Option ProjectedSeries}
    (h : Emits env f trace) :
    (Except.ok ((f {}).map fun out => out.toList.map (·.2)) :
        Except IoError (Option (List SegmentQueryResult))) =
      .ok (some ((trace.foldl (emit env) {}).toList.map (·.2))) := by
  rw [h]
  rfl

theorem PathsAgree.all [TypedCounterValue T] (values : List (UInt64 × T))
    {rest : ProjectedSeries → Option ProjectedSeries}
    (hrest : Emits env rest trace)
    (hapart : IdsApart env baseLabels ((trace.foldl (emit env) {}).toList.map (·.2))) :
    PathsAgree
      (.ok (((do
        let out ← projectTypedCountSamples env baseLabels startMs endMs {} values
        let out ← projectTypedSumSamples env baseLabels startMs endMs out values
        rest out) : Option ProjectedSeries).map fun out => out.toList.map (·.2)))
      (.ok (((do
        let out ← headCounters env baseLabels startMs endMs values
        let results ← rest {}
        return (results.toList.map (·.2)).foldl (fun out r => out.insert r.seriesId.toNat r) out) :
        Option ProjectedSeries).map fun out => out.toList.map (·.2))) := by
  obtain ⟨counters, hcounters, hlabels⟩ := counters_emit env baseLabels startMs endMs values
  have hfree : ∀ e ∈ trace, (counters.foldl (emit env) {})[emitKey env e]? = none := by
    intro e he
    obtain ⟨r, hr, hkey⟩ : ∃ r ∈ (trace.foldl (emit env) {}).toList.map (·.2),
        r.seriesId.toNat = emitKey env e := exists_result_of_mem he
    apply getElem?_foldl_emit_of_ne
    intro c hc heq
    rw [← hkey, emitKey] at heq
    have hid := UInt64.toNat_inj.mp heq.symm
    rcases hlabels c hc with hcount | hsum
    · exact (hapart r hr).1 (hid.trans (congrArg _ hcount))
    · exact (hapart r hr).2 (hid.trans (congrArg _ hsum))
  have hhead := hcounters {}
  have hsealed := (hcounters.comp hrest) {}
  simp only [projectTypedCountSamples_eq_head, projectTypedSumSamples_eq_head, headCounters, bind,
    pure] at *
  rw [← Option.bind_assoc, hsealed, hhead, hrest, Option.bind_some, Option.bind_some,
    Option.map_some, Option.map_some, insert_results hfree, foldl_append]
  exact ⟨rfl, fun out hout => by cases hout; rfl⟩

theorem allPromql_agrees (boundaries : List F64) (samples : ChunkSamples)
    (hids : ∀ rest ∈ [SegmentProjection.histogramBucket .all boundaries, .summaryQuantile none],
      ∀ results, projectHeadSeriesSamples env baseLabels startMs endMs rest samples =
        .ok (some results) → IdsApart env baseLabels results) :
    PathsAgree
      (projectSealedSeriesSamples env baseLabels startMs endMs (.allPromql boundaries) samples)
      (projectHeadSeriesSamples env baseLabels startMs endMs (.allPromql boundaries) samples) := by
  cases samples with
  | float values => exact .nothing
  | int64 values => exact .nothing
  | histogram values =>
    obtain ⟨trace, htrace⟩ := bucketSamplesLoop_emits env baseLabels startMs endMs
      HistogramValue.buckets (·.metadata) .all values .empty
    have hapart := hids _ mem_cons_self _ htrace.results
    have hall := PathsAgree.all env baseLabels startMs endMs values htrace hapart
    refine ⟨Eq.trans ?_ hall.1, hall.2⟩
    simp only [projectSealedSeriesSamples, projectChunkSamples,
      projectHistogramBucketSamples_eq_head]
    rfl
  | exponentialHistogram values =>
    obtain ⟨trace, htrace⟩ := bucketSamplesLoop_emits env baseLabels startMs endMs
      (ExponentialHistogramValue.buckets env boundaries) (·.metadata) .all values .empty
    have hapart := hids _ mem_cons_self _ htrace.results
    exact .all env baseLabels startMs endMs values htrace hapart
  | summary values =>
    obtain ⟨trace, htrace⟩ :=
      projectSummaryQuantileSamples_emits env baseLabels startMs endMs none values
    have hapart := hids _ (mem_cons_of_mem _ mem_cons_self) _ htrace.results
    exact .all env baseLabels startMs endMs values htrace hapart

/-- The head and a sealed chunk return the same series of the same samples, and for counts and sums
so does the scalar lane. -/
theorem sealed_projection_agrees (projection : SegmentProjection) (samples : ChunkSamples)
    (hids : ∀ boundaries, projection = .allPromql boundaries →
      ∀ rest ∈ [SegmentProjection.histogramBucket .all boundaries, .summaryQuantile none],
        ∀ results, projectHeadSeriesSamples env baseLabels startMs endMs rest samples =
          .ok (some results) → IdsApart env baseLabels results) :
    PathsAgree (projectSealedSeriesSamples env baseLabels startMs endMs projection samples)
        (projectHeadSeriesSamples env baseLabels startMs endMs projection samples) ∧
      ∀ scalar : ChunkScalarProjection,
        projectHeadSeriesSamples env baseLabels startMs endMs scalar.projection samples =
          .ok (some (projectScalarChunk env baseLabels startMs endMs scalar
            (samples.project scalar))) := by
  refine ⟨?_, fun scalar => head_scalar env baseLabels startMs endMs scalar samples⟩
  cases projection with
  | none => cases samples <;> exact .nothing
  | nativeHistogram => cases samples <;> exact .nothing
  | nativeExponentialHistogram => cases samples <;> exact .nothing
  | allPromql boundaries => exact allPromql_agrees _ _ _ _ boundaries samples (hids boundaries rfl)
  | histogramBucket le boundaries => exact histogramBucket_agrees _ _ _ _ le boundaries samples
  | summaryQuantile quantile => exact summaryQuantile_agrees _ _ _ _ quantile samples
  | count =>
    cases samples with
    | float values => exact .nothing
    | int64 values => exact .nothing
    | histogram values => exact count_agrees _ _ _ _ values
    | exponentialHistogram values => exact count_agrees _ _ _ _ values
    | summary values => exact count_agrees _ _ _ _ values
  | sum =>
    cases samples with
    | float values => exact .nothing
    | int64 values => exact .nothing
    | histogram values => exact sum_agrees _ _ _ _ values
    | exponentialHistogram values => exact sum_agrees _ _ _ _ values
    | summary values => exact sum_agrees _ _ _ _ values

end Agreement

def xxhashEnv (text : String) : ProjectionEnv where
  ops := ⟨fun _ raw => raw, F64.mk⟩
  powi base _ := base
  powf base _ := base
  formatPromqlFloatLabel _ := text
  segmentSeriesId := seriesId xxhash64
  regexNew _ := .error "no regex"

def oneQuantile : SummaryValue :=
  ⟨3, ⟨7⟩, ⟨none, 0, .cumulative, .unknown⟩, [⟨⟨1⟩, ⟨9⟩⟩]⟩

theorem quantileLabels_metric (metric quantile : String) :
    projectedLabels [(metricNameLabel, metric)] (metricNameOf [(metricNameLabel, metric)]) ""
        (some ("quantile", quantile)) =
      [(metricNameLabel, metric), ("quantile", quantile)] := by
  have hle : metricNameLabel ≤ "quantile" := by decide +kernel
  have hrow : projectedLabels [(metricNameLabel, metric)]
      (metricNameOf [(metricNameLabel, metric)]) "" (some ("quantile", quantile)) =
        [(metricNameLabel, metric), ("quantile", quantile)].mergeSort
          fun left right => left.1 ≤ right.1 := by
    simp [projectedLabels, metricNameOf, labelValue]
  rw [hrow]
  exact mergeSort_of_pairwise (by simpa using hle)

/-- A quantile whose text gives its row the hash of the `_count` row: the head keeps the quantile
alone, a sealed chunk adds it to the counts. -/
theorem quantile_hides_count :
    ¬ ∀ env : ProjectionEnv, env.segmentSeriesId = seriesId xxhash64 →
      ∀ (baseLabels : LabelRow) (startMs endMs : UInt64) (projection : SegmentProjection)
        (samples : ChunkSamples),
        projectSealedSeriesSamples env baseLabels startMs endMs projection samples =
          projectHeadSeriesSamples env baseLabels startMs endMs projection samples := by
  intro h
  have hpaths := congrArg (fun out => out.toOption.map (·.map (·.map (·.samples.length))))
    (h (xxhashEnv "0.0000025708SOyZG3hk") rfl [(metricNameLabel, "m")] 0 10 (.allPromql [])
      (.summary [(5, oneQuantile)]))
  revert hpaths
  simp only [projectSealedSeriesSamples, projectChunkSamples, projectHeadSeriesSamples,
    projectHeadAll, projectHeadSelected, projectSummaryQuantileSamples, quantileLabels_metric]
  decide +kernel

theorem sealed_projection_agrees_summary :
    PathsAgree
      (projectSealedSeriesSamples (xxhashEnv "0.5") [(metricNameLabel, "m")] 0 10 (.allPromql [])
        (.summary [(5, oneQuantile)]))
      (projectHeadSeriesSamples (xxhashEnv "0.5") [(metricNameLabel, "m")] 0 10 (.allPromql [])
        (.summary [(5, oneQuantile)])) := by
  refine (sealed_projection_agrees _ _ 0 10 _ (.summary [(5, oneQuantile)]) ?_).1
  rintro boundaries hall rest hrest results hresults r hr
  cases hall
  rcases mem_cons.mp hrest with rfl | hrest
  · cases hresults
    exact absurd hr not_mem_nil
  cases mem_singleton.mp hrest
  have hids : ((projectHeadSeriesSamples (xxhashEnv "0.5") [(metricNameLabel, "m")] 0 10
      (.summaryQuantile none) (.summary [(5, oneQuantile)])).toOption.map
        (·.map (·.map (·.seriesId)))) =
      some (some [seriesId xxhash64 [(metricNameLabel, "m"), ("quantile", "0.5")]]) := by
    simp only [projectHeadSeriesSamples, projectHeadSelected, projectSummaryQuantileSamples,
      quantileLabels_metric]
    decide +kernel
  rw [hresults] at hids
  have hmem := mem_map_of_mem (f := fun r : SegmentQueryResult => r.seriesId) hr
  rw [show results.map (·.seriesId) = _ from Option.some.inj (Option.some.inj hids)] at hmem
  rw [mem_singleton.mp hmem]
  decide +kernel

end Chronoxide
