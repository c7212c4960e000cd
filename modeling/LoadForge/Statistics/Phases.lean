import LoadForge.Statistics.Summarizer

namespace LoadForge.Statistics

open Framework Telemetry List

/-- What a series' counter advanced by over a window. -/
def deltaOver (s : Series) (w : Window) : UInt64 :=
  (summarizeSeries s.metric (s.points.between w.startNs w.endNs)).delta

def resetsOver (s : Series) (w : Window) : Nat :=
  (summarizeSeries s.metric (s.points.between w.startNs w.endNs)).resets

theorem movedOver_eq (s : Series) (w : Window) (hk : s.metric.kind = .kCounter) :
    (deltaOver s w, resetsOver s w) =
      pairSum (moved s.metric) (s.points.between w.startNs w.endNs) := by
  refine summarizeSeries_moved s.metric hk _ ?_
  intro p hp
  rw [between_eq_filter] at hp
  exact s.suits p (mem_filter.mp hp).1

/-- What the summarizer says a series advanced by over a window. -/
def summarizedDelta (t : BoundedTimeline) (index : Nat) (w : Window) : UInt64 :=
  match summarize t w with
  | .ok signature => (signature.metrics[index]?.map MetricSummary.delta).getD 0
  | .error _ => 0

def summarizedResets (t : BoundedTimeline) (index : Nat) (w : Window) : Nat :=
  match summarize t w with
  | .ok signature => (signature.metrics[index]?.map MetricSummary.resets).getD 0
  | .error _ => 0

theorem summarized_eq (t : BoundedTimeline) (index : Nat) (w : Window) (s : Series)
    (hs : t.series[index]? = some s) (hk : s.metric.kind = .kCounter) :
    summarizedDelta t index w = deltaOver s w ∧ summarizedResets t index w = resetsOver s w := by
  unfold summarizedDelta summarizedResets summarize
  split_ifs with hw
  · have hnone : s.points.between w.startNs w.endNs = [] := by
      rw [between_eq_filter, filter_eq_nil_iff]
      intro p _
      simp
      omega
    have hmoved := movedOver_eq s w hk
    rw [hnone] at hmoved
    exact ⟨(congrArg Prod.fst hmoved).symm, (congrArg Prod.snd hmoved).symm⟩
  · simp [hs, deltaOver, resetsOver]

theorem phaseWindow_succ (m : PhaseMark) (marks : List PhaseMark) (index : Nat) (last : Int) :
    phaseWindow (m :: marks) (index + 1) last = phaseWindow marks index last := by
  simp [phaseWindow]

theorem phaseWindows_bounds (marks : List PhaseMark) (last : Int) :
    (phaseWindows marks last).map (fun p => (p.window.startNs, p.window.endNs)) =
      windowsFrom (marks.map (·.startNs)) last := by
  induction marks with
  | nil => rfl
  | cons m marks ih =>
    have htail : (phaseWindows (m :: marks) last).map
          (fun p => (p.window.startNs, p.window.endNs)) =
        ((phaseWindow (m :: marks) 0 last).startNs, (phaseWindow (m :: marks) 0 last).endNs) ::
          (phaseWindows marks last).map fun p => (p.window.startNs, p.window.endNs) := by
      unfold phaseWindows
      rw [length_cons, range_succ_eq_map]
      simp [Function.comp_def, phaseWindow_succ]
    rw [htail, ih]
    cases marks with
    | nil => simp [phaseWindow, windowsFrom, kClosingMargin]
    | cons n marks => simp [phaseWindow, windowsFrom, kClosingMargin]

/-- Phases whose marks are instants of the series share out what it moved over the run. -/
theorem sum_movedOver_phases (s : Series) (hk : s.metric.kind = .kCounter) (m : PhaseMark)
    (marks : List PhaseMark) (last : Int)
    (hasc : (m :: marks).Pairwise fun a b => a.startNs < b.startNs)
    (hmarks : ∀ n ∈ marks, n.startNs ∈ s.times ∧ n.startNs ≤ last) :
    ((phaseWindows (m :: marks) last).map fun p => deltaOver s p.window).sum =
        deltaOver s (runWindow m.startNs last) ∧
      ((phaseWindows (m :: marks) last).map fun p => resetsOver s p.window).sum =
        resetsOver s (runWindow m.startNs last) := by
  have hsum := sum_pairSum_windowsFrom (moved s.metric) s.points m.startNs
    (marks.map (·.startNs)) last ?_ ?_ ?_
  · rw [← map_cons, ← phaseWindows_bounds, map_map] at hsum
    have hrun := movedOver_eq s (runWindow m.startNs last) hk
    have hpairs : ((phaseWindows (m :: marks) last).map fun p =>
        (deltaOver s p.window, resetsOver s p.window)).sum =
          (deltaOver s (runWindow m.startNs last), resetsOver s (runWindow m.startNs last)) := by
      refine Eq.trans ?_ (hsum.trans hrun.symm)
      congr 1
      refine map_congr_left ?_
      intro p _
      exact movedOver_eq s p.window hk
    have hfst := map_list_sum (AddMonoidHom.fst UInt64 Nat)
      ((phaseWindows (m :: marks) last).map fun p => (deltaOver s p.window, resetsOver s p.window))
    have hsnd := map_list_sum (AddMonoidHom.snd UInt64 Nat)
      ((phaseWindows (m :: marks) last).map fun p => (deltaOver s p.window, resetsOver s p.window))
    rw [hpairs, map_map] at hfst hsnd
    exact ⟨hfst.symm, hsnd.symm⟩
  · intro t ht
    obtain ⟨n, hn, rfl⟩ := mem_map.mp ht
    obtain ⟨p, hp, heq⟩ := mem_map.mp (hmarks n hn).1
    exact ⟨p, hp, heq⟩
  · rw [← map_cons]
    exact pairwise_map.mpr (hasc.imp fun h => Int.le_of_lt h)
  · intro t ht
    obtain ⟨n, hn, rfl⟩ := mem_map.mp ht
    exact (hmarks n hn).2

theorem movedOver_empty (s : Series) (w : Window) (hk : s.metric.kind = .kCounter)
    (hs : s.times = []) : deltaOver s w = 0 ∧ resetsOver s w = 0 := by
  have hitems : s.points.items = [] := map_eq_nil_iff.mp hs
  have hmoved := movedOver_eq s w hk
  rw [between_eq_filter, hitems] at hmoved
  exact ⟨congrArg Prod.fst hmoved, congrArg Prod.snd hmoved⟩

theorem movedOver_instant (s : Series) (hk : s.metric.kind = .kCounter) (last : Int)
    (hlast : last ∈ s.times) :
    deltaOver s (runWindow last last) = 0 ∧ resetsOver s (runWindow last last) = 0 := by
  obtain ⟨p, hp, rfl⟩ := mem_map.mp hlast
  have hcut := pairSum_between_cut (moved s.metric) s.points p.timestampNs p.timestampNs p hp
    (Int.le_refl _) (Int.le_refl _)
  have hmoved := movedOver_eq s (runWindow p.timestampNs p.timestampNs) hk
  have hzero := hmoved.trans (left_eq_add.mp hcut)
  exact ⟨congrArg Prod.fst hzero, congrArg Prod.snd hzero⟩

/-- Phases marked at instants of the points share out what each counter advanced by and its
resets; one marked at the last round has none. -/
theorem phases_partition_the_run (t : BoundedTimeline) (m : PhaseMark) (marks : List PhaseMark)
    (last : Int) (hphases : t.phases.items = m :: marks)
    (hmarks : ∀ n ∈ t.phases.items, n.startNs ≤ last ∧ ∀ s ∈ t.series, n.startNs ∈ s.times)
    (index : Nat) (s : Series) (hs : t.series[index]? = some s) (hk : s.metric.kind = .kCounter) :
    ((phaseWindows t.phases.items last).map fun p => summarizedDelta t index p.window).sum =
        summarizedDelta t index (runWindow m.startNs last) ∧
      ((phaseWindows t.phases.items last).map fun p => summarizedResets t index p.window).sum =
        summarizedResets t index (runWindow m.startNs last) ∧
      ∀ n, t.phases.items.getLast? = some n → n.startNs = last →
        ∃ w, (phaseWindows t.phases.items last).getLast?.map PhaseWindow.window = some w ∧
          summarizedDelta t index w = 0 ∧ summarizedResets t index w = 0 := by
  have hmem : s ∈ t.series := mem_of_getElem? hs
  have hasc := t.phases.ascending
  rw [hphases] at hasc hmarks ⊢
  obtain ⟨hdelta, hresets⟩ := sum_movedOver_phases s hk m marks last hasc fun n hn =>
    ⟨(hmarks n (by simp [hn])).2 s hmem, (hmarks n (by simp [hn])).1⟩
  simp only [(summarized_eq t index _ s hs hk).1, (summarized_eq t index _ s hs hk).2]
  refine ⟨hdelta, hresets, ?_⟩
  intro n hn hlast
  obtain ⟨before, hsplit⟩ := getLast?_eq_some_iff.mp hn
  refine ⟨runWindow last last, ?_, movedOver_instant s hk last ?_⟩
  · rw [hsplit]
    simp [phaseWindows, range_succ, phaseWindow, runWindow, hlast]
  · rw [← hlast]
    exact (hmarks n (mem_of_getLast? hn)).2 s hmem

/-- A counter that was reset in the first of three phases, the last at its last point. -/
def markedTimeline : BoundedTimeline where
  capacity := 4
  size := 3
  series := [⟨{ name := "edac.corrected", kind := .kCounter },
    ⟨[⟨0, .counter 5⟩, ⟨10, .counter 2⟩, ⟨20, .counter 9⟩], by decide⟩, by decide⟩]
  phases := ⟨[⟨0, "run"⟩, ⟨10, "busy"⟩, ⟨20, "stop"⟩], by decide⟩

theorem marked_phases_partition :
    ((phaseWindows markedTimeline.phases.items 20).map fun p =>
        summarizedDelta markedTimeline 0 p.window).sum =
      summarizedDelta markedTimeline 0 (runWindow 0 20) ∧
    summarizedResets markedTimeline 0 (runWindow 0 20) = 1 :=
  ⟨(phases_partition_the_run markedTimeline ⟨0, "run"⟩ _ 20 rfl (by decide) 0 _ rfl rfl).1,
    by decide⟩

end LoadForge.Statistics
