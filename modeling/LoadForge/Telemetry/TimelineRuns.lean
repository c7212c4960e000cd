import LoadForge.Framework.Run
import LoadForge.Telemetry.Sampler

namespace LoadForge.Telemetry

open Framework List Option

/-- What is asked of a timeline, with any points, any instants and any sampler. -/
inductive TimelineCall
  | addSeries (metric : Metric)
  | append (id : Nat) (point : Point)
  | markPhase (mark : PhaseMark)
  | round (sampler : Sampler) (sample : Nat → List Reading) (nowNs : Int)

def taken (t : BoundedTimeline) :
    Except TimelineError BoundedTimeline → BoundedTimeline × Option TimelineError
  | .ok t' => (t', none)
  | .error e => (t, some e)

namespace BoundedTimeline

/-- The timeline after a call, and the refusal if it was refused. -/
def call (t : BoundedTimeline) : TimelineCall → BoundedTimeline × Option TimelineError
  | .addSeries metric => taken t ((t.addSeries metric).map Prod.snd)
  | .append id point => taken t (t.append id point)
  | .markPhase mark => taken t (t.markPhase mark)
  | .round sampler sample nowNs =>
    ((sampler.round sample t nowNs).1,
      match (sampler.round sample t nowNs).2 with
      | .ok _ => none
      | .error e => some e)

def after (t : BoundedTimeline) (calls : List TimelineCall) : BoundedTimeline :=
  run (fun t c => (t.call c).1) t calls

/-- What holds of a timeline after any calls. -/
structure Sound (t : BoundedTimeline) : Prop where
  distinct : (t.series.map Series.metric).Pairwise fun a b => sameSeries a b = false
  times : ∀ s ∈ t.series, s.times.Pairwise (· < ·)
  marks : (t.phases.items.map PhaseMark.startNs).Pairwise (· < ·)
  suits : ∀ s ∈ t.series, ∀ p ∈ s.points.items, kindMatches s.metric.kind p.reading = true
  size : t.size = (t.series.map fun s => s.points.items.length).sum
  bounded : t.size ≤ t.capacity

/-- The call broke the rule that the fault names. -/
def Breaks (t : BoundedTimeline) : TimelineCall → TimelineFault → Prop
  | .addSeries metric, .kDuplicateSeries => ∃ s ∈ t.series, sameSeries s.metric metric = true
  | .append id _, .kUnknownSeries => t.series.length ≤ id
  | .append id point, .kOutOfOrder => ∃ s, t.series[id]? = some s ∧
    ∃ last, s.points.items.getLast? = some last ∧ point.timestampNs ≤ last.timestampNs
  | .append id point, .kKindMismatch => ∃ s, t.series[id]? = some s ∧
    kindMatches s.metric.kind point.reading = false
  | .append _ _, .kCapacity => t.capacity ≤ t.size
  | .markPhase mark, .kOutOfOrder =>
    ∃ last, t.phases.items.getLast? = some last ∧ mark.startNs ≤ last.startNs
  | _, _ => False

theorem sound_of {t : BoundedTimeline}
    (hdistinct : (t.series.map Series.metric).Pairwise fun a b => sameSeries a b = false)
    (hsize : t.size = (t.series.map fun s => s.points.items.length).sum)
    (hbounded : t.size ≤ t.capacity) : t.Sound :=
  ⟨hdistinct, fun s _ => s.times_ascending, pairwise_map.mpr t.phases.ascending,
    fun s _ => s.suits, hsize, hbounded⟩

theorem sum_set_succ {ns : List Nat} {i n : Nat} (h : ns[i]? = some n) :
    (ns.set i (n + 1)).sum = ns.sum + 1 := by
  induction ns generalizing i with
  | nil => cases h
  | cons m ns ih =>
    cases i with
    | zero =>
      cases h
      simp
      omega
    | succ i =>
      rw [set_cons_succ, sum_cons, sum_cons, ih h]
      omega

theorem append_sound {t t' : BoundedTimeline} {id : Nat} {point : Point} (h : t.Sound)
    (ha : t.append id point = .ok t') : t'.Sound := by
  unfold append at ha
  cases htarget : t.series[id]? with
  | none => simp [htarget] at ha
  | some target =>
    simp only [htarget] at ha
    cases hgrown : target.append point (decide (t.capacity ≤ t.size)) t.capacity with
    | error e => simp [hgrown] at ha
    | ok grown =>
      simp only [hgrown] at ha
      cases ha
      have hmetric := (target.append_ok grown point _ _ hgrown).1
      have hlength : grown.points.items.length = target.points.items.length + 1 := by
        have htimes := congrArg List.length (target.append_ok grown point _ _ hgrown).2
        simpa [Series.times] using htimes
      have hroom : t.size < t.capacity := by
        unfold Series.append at hgrown
        split_ifs at hgrown with hf hk hfull
        simpa using hfull
      obtain ⟨hlt, hget⟩ := List.getElem?_eq_some_iff.mp htarget
      apply sound_of
      · show ((t.series.set id grown).map Series.metric).Pairwise _
        rw [map_set, hmetric, ← hget, ← getElem_map Series.metric (h := by simpa using hlt),
          set_getElem_self]
        exact h.distinct
      · show t.size + 1 = ((t.series.set id grown).map fun s => s.points.items.length).sum
        rw [map_set, hlength, sum_set_succ, ← h.size]
        rw [getElem?_map, htarget]
        rfl
      · exact hroom

theorem appendAll_sound (nowNs : Int) (rs : List (Nat × Reading)) (t : BoundedTimeline)
    (h : t.Sound) : (appendAll nowNs t rs).1.Sound := by
  induction rs generalizing t with
  | nil => exact h
  | cons r rs ih =>
    unfold appendAll
    cases ha : t.append r.1 ⟨nowNs, r.2⟩ with
    | error e => exact h
    | ok t' => exact ih t' (append_sound h ha)

theorem addSeries_sound {t t' : BoundedTimeline} {metric : Metric} {id : Nat} (h : t.Sound)
    (ha : t.addSeries metric = .ok (id, t')) : t'.Sound := by
  unfold addSeries at ha
  split_ifs at ha with hany
  cases ha
  apply sound_of
  · show ((t.series ++ [_]).map Series.metric).Pairwise _
    rw [map_append, pairwise_append]
    refine ⟨h.distinct, pairwise_singleton _ _, ?_⟩
    intro a ha b hb
    obtain ⟨s, hs, rfl⟩ := List.mem_map.mp ha
    rw [mem_singleton.mp hb]
    simp only [List.any_eq_true, not_exists, not_and, Bool.not_eq_true] at hany
    exact hany s hs
  · show t.size = ((t.series ++ [_]).map fun s : Series => s.points.items.length).sum
    rw [map_append, sum_append, ← h.size]
    rfl
  · exact h.bounded

theorem taken_sound {t : BoundedTimeline} {answer : Except TimelineError BoundedTimeline}
    (h : t.Sound) (ha : ∀ t', answer = .ok t' → t'.Sound) : (taken t answer).1.Sound := by
  cases answer with
  | error e => exact h
  | ok t' => exact ha t' rfl

theorem call_sound (t : BoundedTimeline) (c : TimelineCall) (h : t.Sound) : (t.call c).1.Sound := by
  cases c with
  | addSeries metric =>
    apply taken_sound h
    intro t' ht'
    cases ha : t.addSeries metric with
    | error e => simp [ha, Except.map] at ht'
    | ok added =>
      rw [ha] at ht'
      cases ht'
      exact addSeries_sound h ha
  | append id point => exact taken_sound h fun t' ha => append_sound h ha
  | markPhase mark =>
    apply taken_sound h
    intro t' ht'
    unfold markPhase at ht'
    split_ifs at ht'
    cases ht'
    exact sound_of h.distinct h.size h.bounded
  | round sampler sample nowNs =>
    show (sampler.round sample t nowNs).1.Sound
    unfold Sampler.round
    split_ifs
    · exact appendAll_sound nowNs _ t h
    · exact h

theorem not_follows {α : Type} {key : α → Int} {l : Ascending α key} {a : α}
    (h : ¬ l.follows a = true) : ∃ last, l.items.getLast? = some last ∧ key a ≤ key last := by
  unfold Ascending.follows at h
  cases hlast : l.items.getLast? with
  | none => simp [hlast] at h
  | some last =>
    simp only [hlast, decide_eq_true_eq] at h
    exact ⟨last, rfl, Int.not_lt.mp h⟩

theorem taken_refused {t : BoundedTimeline} {answer : Except TimelineError BoundedTimeline}
    {e : TimelineError} (h : (taken t answer).2 = some e) :
    (taken t answer).1 = t ∧ answer = .error e := by
  cases answer with
  | error e' =>
    cases h
    exact ⟨rfl, rfl⟩
  | ok t' => cases h

/-- A refused call leaves the timeline as it was, and names a rule that it broke. -/
theorem call_refused (t : BoundedTimeline) (c : TimelineCall) (e : TimelineError)
    (hround : ∀ sampler sample nowNs, c ≠ .round sampler sample nowNs)
    (h : (t.call c).2 = some e) : (t.call c).1 = t ∧ t.Breaks c e.fault := by
  cases c with
  | addSeries metric =>
    obtain ⟨hsame, hanswer⟩ := taken_refused h
    refine ⟨hsame, ?_⟩
    unfold addSeries at hanswer
    split_ifs at hanswer with hany
    · cases hanswer
      exact List.any_eq_true.mp hany
    · cases hanswer
  | append id point =>
    obtain ⟨hsame, hanswer⟩ := taken_refused h
    refine ⟨hsame, ?_⟩
    unfold append at hanswer
    cases htarget : t.series[id]? with
    | none =>
      simp only [htarget] at hanswer
      cases hanswer
      exact List.getElem?_eq_none_iff.mp htarget
    | some target =>
      simp only [htarget, Series.append] at hanswer
      split_ifs at hanswer with hf hk hfull
      · cases hanswer
        have hsize : t.capacity ≤ t.size := of_decide_eq_true hfull
        exact hsize
      · cases hanswer
        exact ⟨target, htarget, Bool.eq_false_iff.mpr hk⟩
      · cases hanswer
        exact ⟨target, htarget, not_follows hf⟩
  | markPhase mark =>
    obtain ⟨hsame, hanswer⟩ := taken_refused h
    refine ⟨hsame, ?_⟩
    unfold markPhase at hanswer
    split_ifs at hanswer with hf
    cases hanswer
    exact not_follows hf
  | round sampler sample nowNs => exact absurd rfl (hround sampler sample nowNs)

end BoundedTimeline

section Sampled

/-- Each of the series has exactly the points of these instants. -/
def EachAt (t : BoundedTimeline) (ids : List Nat) (rounds : List Int) : Prop :=
  ∀ id ∈ ids, t.series[id]?.map Series.times = some rounds

theorem addSeries_times {t t' : BoundedTimeline} {metric : Metric} {new : Nat}
    (h : t.addSeries metric = .ok (new, t')) :
    EachAt t' [new] [] ∧ ∀ ids rounds, EachAt t ids rounds → EachAt t' ids rounds := by
  unfold BoundedTimeline.addSeries at h
  split_ifs at h
  cases h
  constructor
  · intro id hid
    rw [mem_singleton.mp hid]
    simp [Series.times]
  · intro ids rounds heach id hid
    obtain ⟨s, hs, htimes⟩ := map_eq_some_iff.mp (heach id hid)
    rw [getElem?_append_left (List.getElem?_eq_some_iff.mp hs).1, hs]
    exact congrArg some htimes

theorem registerAll_times (metrics : List Metric) (t : BoundedTimeline) :
    (∀ ids rounds, EachAt t ids rounds → EachAt (registerAll t metrics).1 ids rounds) ∧
      ∀ ids, (registerAll t metrics).2 = some ids → EachAt (registerAll t metrics).1 ids [] := by
  induction metrics generalizing t with
  | nil =>
    refine ⟨fun _ _ h => h, ?_⟩
    intro ids hids
    cases hids
    exact fun id hid => absurd hid not_mem_nil
  | cons metric rest ih =>
    unfold registerAll
    cases hadd : t.addSeries metric with
    | error e => exact ⟨fun _ _ h => h, fun ids hids => by cases hids⟩
    | ok added =>
      obtain ⟨hnew, hold⟩ := addSeries_times hadd
      obtain ⟨hkeeps, hids⟩ := ih added.2
      refine ⟨fun ids rounds h => hkeeps ids rounds (hold ids rounds h), ?_⟩
      intro ids hsome
      obtain ⟨others, hothers, rfl⟩ := map_eq_some_iff.mp hsome
      intro id hid
      rcases mem_cons.mp hid with rfl | hid
      · exact hkeeps _ _ hnew _ (mem_singleton_self _)
      · exact hids others hothers id hid

theorem probeSources_times (sources : List Source) (t : BoundedTimeline) :
    (∀ ids rounds, EachAt t ids rounds → EachAt (probeSources t sources).1 ids rounds) ∧
      ((probeSources t sources).2.probed = true →
        EachAt (probeSources t sources).1 ((probeSources t sources).2.sources.flatMap (·.ids))
          []) := by
  induction sources generalizing t with
  | nil => exact ⟨fun _ _ h => h, fun _ => nofun⟩
  | cons source rest ih =>
    obtain ⟨hkeeps, hids⟩ := registerAll_times
      ((source.statuses.filter fun status => status.unavailable.isNone).map (·.metric)) t
    unfold probeSources
    simp only
    split
    · rename_i t' hr
      rw [hr] at hkeeps
      exact ⟨hkeeps, nofun⟩
    · rename_i t' ids hr
      rw [hr] at hkeeps hids
      obtain ⟨hkeeps', hids'⟩ := ih t'
      refine ⟨fun ids rounds h => hkeeps' ids rounds (hkeeps ids rounds h), ?_⟩
      intro hprobed id hid
      rcases mem_append.mp (flatMap_cons ▸ hid) with hid | hid
      · exact hkeeps' ids [] (hids ids rfl) id hid
      · exact hids' hprobed id hid

def AloneAppends (sampler : Sampler) (t : BoundedTimeline) : TimelineCall → Prop
  | .append _ _ => False
  | .round other sample nowNs => other = sampler ∧ ∃ n, (sampler.round sample t nowNs).2 = .ok n
  | _ => True

def roundTimes (calls : List TimelineCall) : List Int :=
  calls.filterMap fun c =>
    match c with
    | .round _ _ nowNs => some nowNs
    | _ => none

theorem after_eachAt (sampler : Sampler) (calls : List TimelineCall) (t : BoundedTimeline)
    (rounds : List Int) (h : EachAt t sampler.ids rounds)
    (halone : Along (fun t c => (t.call c).1) (AloneAppends sampler) t calls) :
    EachAt (t.after calls) sampler.ids (rounds ++ roundTimes calls) := by
  induction calls generalizing t rounds with
  | nil => rwa [roundTimes, filterMap_nil, append_nil]
  | cons c calls ih =>
    obtain ⟨hcall, hrest⟩ := halone
    cases c with
    | append id point => exact hcall.elim
    | addSeries metric =>
      refine ih _ rounds ?_ hrest
      simp only [BoundedTimeline.call]
      cases hadd : t.addSeries metric with
      | error e => exact h
      | ok added => exact (addSeries_times hadd).2 _ _ h
    | markPhase mark =>
      refine ih _ rounds ?_ hrest
      simp only [BoundedTimeline.call, BoundedTimeline.markPhase]
      split_ifs
      · exact h
      · exact h
    | round other sample nowNs =>
      obtain ⟨rfl, n, hok⟩ := hcall
      have hround : EachAt (other.round sample t nowNs).1 other.ids (rounds ++ [nowNs]) := by
        intro id hid
        obtain ⟨s, hs, rfl⟩ := map_eq_some_iff.mp (h id hid)
        rw [round_times other sample t nowNs n hok, hs, map_some, if_pos hid]
      have hafter := ih _ _ hround hrest
      rwa [append_assoc] at hafter

end Sampled

/-- A timeline keeps its rules, and a sampler that alone appends gives a point a round. -/
theorem timeline_keeps_its_rules (capacity : Nat) (calls : List TimelineCall) :
    (BoundedTimeline.after { capacity } calls).Sound ∧
    (∀ c e, (∀ sampler sample nowNs, c ≠ .round sampler sample nowNs) →
      ((BoundedTimeline.after { capacity } calls).call c).2 = some e →
        ((BoundedTimeline.after { capacity } calls).call c).1 =
            BoundedTimeline.after { capacity } calls ∧
          (BoundedTimeline.after { capacity } calls).Breaks c e.fault) ∧
    ∀ sources t sampler later,
      probeSources (BoundedTimeline.after { capacity } calls) sources = (t, sampler) →
      sampler.probed = true →
      Along (fun t c => (t.call c).1) (AloneAppends sampler) t later →
      ∀ id ∈ sampler.ids, ∃ s, (t.after later).series[id]? = some s ∧
        s.times = roundTimes later := by
  refine ⟨?_, fun c e => BoundedTimeline.call_refused _ c e, ?_⟩
  · apply run_inv BoundedTimeline.Sound BoundedTimeline.call_sound
    exact BoundedTimeline.sound_of List.Pairwise.nil rfl (Nat.zero_le _)
  · intro sources t sampler later hprobe hprobed halone id hid
    have hfresh := (probeSources_times sources (BoundedTimeline.after { capacity } calls)).2
    rw [hprobe] at hfresh
    have hids : EachAt t sampler.ids [] := by
      rw [Sampler.ids, if_pos hprobed]
      exact hfresh hprobed
    exact map_eq_some_iff.mp (after_eachAt sampler later t [] hids halone id hid)

def packageSource : Source := ⟨"thermal", [⟨{ name := "thermal.package" }, none⟩]⟩

/-- A sampler of one metric, whose source has no reading for the second round. -/
def twoRounds : List TimelineCall :=
  [.round ⟨true, [⟨"thermal", [0]⟩]⟩ (fun _ => [.gauge 40]) 5,
    .round ⟨true, [⟨"thermal", [0]⟩]⟩ (fun _ => []) 9]

theorem two_rounds_keep_the_rules :
    ∃ t, probeSources { capacity := 4 } [packageSource] = (t, ⟨true, [⟨"thermal", [0]⟩]⟩) ∧
      ∃ s, (t.after twoRounds).series[0]? = some s ∧ s.times = [5, 9] := by
  refine ⟨_, rfl, ?_⟩
  apply (timeline_keeps_its_rules 4 []).2.2 [packageSource] _ _ twoRounds rfl rfl ?_ 0 (by decide)
  exact ⟨⟨rfl, 1, rfl⟩, ⟨rfl, 1, rfl⟩, trivial⟩

end LoadForge.Telemetry
