import LoadForge.Telemetry.Timeline

namespace LoadForge.Telemetry

open List

/-- A metric a source offers, and why it has no value when it has none. -/
structure MetricStatus where
  metric : Metric
  unavailable : Option Unavailable := none
  deriving DecidableEq

structure Source where
  name : String
  statuses : List MetricStatus
  deriving DecidableEq

structure SourceSeries where
  name : String
  ids : List Nat
  deriving DecidableEq

/-- A sampler once it has probed its sources; without `probed` the probe was refused. -/
structure Sampler where
  probed : Bool
  sources : List SourceSeries
  deriving DecidableEq

/-- A series for each metric that is present, up to the first the timeline refuses. -/
def registerAll (t : BoundedTimeline) : List Metric → BoundedTimeline × Option (List Nat)
  | [] => (t, some [])
  | metric :: rest =>
    match t.addSeries metric with
    | .error _ => (t, none)
    | .ok (id, t) =>
      let (t, ids) := registerAll t rest
      (t, ids.map (id :: ·))

def probeSources (t : BoundedTimeline) : List Source → BoundedTimeline × Sampler
  | [] => (t, ⟨true, []⟩)
  | source :: rest =>
    let present := source.statuses.filter fun status => status.unavailable.isNone
    match registerAll t (present.map (·.metric)) with
    | (t, none) => (t, ⟨false, []⟩)
    | (t, some ids) =>
      let (t, sampler) := probeSources t rest
      (t, { sampler with sources := ⟨source.name, ids⟩ :: sampler.sources })

theorem registerAll_fresh (metrics : List Metric) (t : BoundedTimeline) (ht : t.Fresh) :
    (registerAll t metrics).1.Fresh := by
  induction metrics generalizing t with
  | nil => exact ht
  | cons metric rest ih =>
    unfold registerAll
    split
    · exact ht
    · rename_i id t' ha
      exact ih t' (t.addSeries_fresh t' metric id ht ha)

theorem probeSources_fresh (sources : List Source) (t : BoundedTimeline) (ht : t.Fresh) :
    (probeSources t sources).1.Fresh := by
  induction sources generalizing t with
  | nil => exact ht
  | cons source rest ih =>
    have hregistered := registerAll_fresh
      ((source.statuses.filter fun status => status.unavailable.isNone).map (·.metric)) t ht
    unfold probeSources
    simp only
    split
    · rename_i t' hr
      rwa [hr] at hregistered
    · rename_i t' ids hr
      rw [hr] at hregistered
      exact ih t' hregistered

def malformed (name : String) (returned expected : Nat) : Unavailable where
  kind := .kMalformed
  detail := name ++ " returned " ++ toString returned ++ " readings for " ++ toString expected ++
    " present metrics"
  remediation := "this is a defect in the " ++ name ++
    " source: report it with the capability report"

/-- A source's readings, one for each of its series; of a wrong number none is trusted. -/
def readingsFor (source : SourceSeries) (returned : List Reading) : List Reading :=
  if returned.length = source.ids.length then returned
  else
    List.replicate source.ids.length
      (.unavailable (malformed source.name returned.length source.ids.length))

/-- Points appended in order, up to the first the timeline refuses; those before it stay. -/
def appendAll (nowNs : Int) :
    BoundedTimeline → List (Nat × Reading) → BoundedTimeline × Except TimelineError Nat
  | t, [] => (t, .ok 0)
  | t, (id, reading) :: rest =>
    match t.append id ⟨nowNs, reading⟩ with
    | .error e => (t, .error e)
    | .ok t =>
      let (t, appended) := appendAll nowNs t rest
      (t, appended.map (· + 1))

/-- The readings of a round, by the series they go to. -/
def Sampler.readings (sampler : Sampler) (sample : Nat → List Reading) : List (Nat × Reading) :=
  sampler.sources.zipIdx.flatMap fun (source, index) =>
    source.ids.zip (readingsFor source (sample index))

/-- One round: every source read once, at one instant. -/
def Sampler.round (sampler : Sampler) (sample : Nat → List Reading) (t : BoundedTimeline)
    (nowNs : Int) : BoundedTimeline × Except TimelineError Nat :=
  if sampler.probed then appendAll nowNs t (sampler.readings sample) else (t, .ok 0)

def Sampler.ids (sampler : Sampler) : List Nat :=
  if sampler.probed then sampler.sources.flatMap (·.ids) else []

theorem readings_ids (sampler : Sampler) (sample : Nat → List Reading) :
    (sampler.readings sample).map (·.1) = sampler.sources.flatMap (·.ids) := by
  have hsource : ∀ (source : SourceSeries) (returned : List Reading),
      (source.ids.zip (readingsFor source returned)).map (·.1) = source.ids := by
    intro source returned
    have hlen : source.ids.length ≤ (readingsFor source returned).length := by
      unfold readingsFor
      split_ifs with heq
      · omega
      · simp
    exact map_fst_zip hlen
  have hall : ∀ (sources : List SourceSeries) (start : Nat),
      ((sources.zipIdx start).flatMap fun (source, index) =>
        source.ids.zip (readingsFor source (sample index))).map (·.1) =
      sources.flatMap (·.ids) := by
    intro sources
    induction sources with
    | nil => intro start; rfl
    | cons source rest ih =>
      intro start
      simp [hsource, ih]
  exact hall sampler.sources 0

theorem appendAll_times (nowNs : Int) (rs : List (Nat × Reading)) (t : BoundedTimeline)
    (n : Nat) (ha : (appendAll nowNs t rs).2 = .ok n) (index : Nat) :
    (appendAll nowNs t rs).1.series[index]?.map Series.times =
      t.series[index]?.map fun s =>
        s.times ++ replicate ((rs.map (·.1)).count index) nowNs := by
  induction rs generalizing t n with
  | nil => simp [appendAll]
  | cons r rs ih =>
    obtain ⟨id, reading⟩ := r
    unfold appendAll at ha ⊢
    cases happ : t.append id ⟨nowNs, reading⟩ with
    | error e => simp [happ] at ha
    | ok t1 =>
      simp only [happ] at ha ⊢
      cases hrest : (appendAll nowNs t1 rs).2 with
      | error e => simp [hrest, Except.map] at ha
      | ok k =>
        have htimes := t.append_times t1 id ⟨nowNs, reading⟩ happ index
        rw [ih t1 k hrest]
        cases hs : t.series[index]? with
        | none =>
          rw [hs] at htimes
          cases hs1 : t1.series[index]? with
          | none => rfl
          | some s1 => simp [hs1] at htimes
        | some s =>
          rw [hs] at htimes
          cases hs1 : t1.series[index]? with
          | none => simp [hs1] at htimes
          | some s1 =>
            simp only [hs1, Option.map_some, Option.some.injEq] at htimes ⊢
            rw [htimes, map_cons, count_cons, append_assoc]
            by_cases hid : index = id
            · simp [hid, replicate_succ]
            · simp [hid, Ne.symm hid]

/-- Every series of a timeline was read at these instants, or is not the sampler's. -/
def SampledAt (t : BoundedTimeline) (ids : List Nat) (rounds : List Int) : Prop :=
  ∀ index s, t.series[index]? = some s → s.times = if index ∈ ids then rounds else []

private theorem count_le_one_of_ascending (xs : List Int) (n : Nat) (a : Int)
    (hasc : (xs ++ replicate n a).Pairwise (· < ·)) : n ≤ 1 := by
  have hrep := (pairwise_append.mp hasc).2.1
  match n with
  | 0 => omega
  | 1 => omega
  | n + 2 => simp [replicate_succ] at hrep

section

variable (sampler : Sampler) (sample : Nat → List Reading) (t : BoundedTimeline) (nowNs : Int)

theorem round_times (n : Nat) (hok : (sampler.round sample t nowNs).2 = .ok n) (index : Nat) :
    (sampler.round sample t nowNs).1.series[index]?.map Series.times =
      t.series[index]?.map fun s => s.times ++ if index ∈ sampler.ids then [nowNs] else [] := by
  unfold Sampler.round Sampler.ids at *
  by_cases hp : sampler.probed = true
  · simp only [hp, if_true] at hok ⊢
    have htimes := appendAll_times nowNs (sampler.readings sample) t n hok index
    rw [htimes, readings_ids]
    rw [readings_ids] at htimes
    cases hs : t.series[index]? with
    | none => rfl
    | some s =>
      obtain ⟨s', hs', heq⟩ := Option.map_eq_some_iff.mp (htimes.trans (by rw [hs]; rfl))
      have hasc := s'.times_ascending
      rw [heq] at hasc
      by_cases hmem : index ∈ sampler.sources.flatMap (·.ids)
      · have hone := count_le_one_of_ascending _ _ _ hasc
        have hpos := count_pos_iff.mpr hmem
        have heq : (sampler.sources.flatMap (·.ids)).count index = 1 := by omega
        simp [hmem, heq]
      · simp [hmem, count_eq_zero.mpr hmem]
  · simp [hp]

theorem round_sampledAt (rounds : List Int) (n : Nat) (ht : SampledAt t sampler.ids rounds)
    (hok : (sampler.round sample t nowNs).2 = .ok n) :
    SampledAt (sampler.round sample t nowNs).1 sampler.ids (rounds ++ [nowNs]) := by
  intro index s' hs'
  have htimes := round_times sampler sample t nowNs n hok index
  rw [hs', Option.map_some] at htimes
  obtain ⟨s, hs, heq⟩ := Option.map_eq_some_iff.mp htimes.symm
  rw [← heq, ht index s hs]
  split_ifs <;> rfl

end

end LoadForge.Telemetry
