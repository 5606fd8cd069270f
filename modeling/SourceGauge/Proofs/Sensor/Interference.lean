import SourceGauge.Proofs.Measure.Action
import SourceGauge.Proofs.Sensor.Schedule
import SourceGauge.Sensor.Standard

/-! Sensors that do not get in each other's way. If two sensors save under different keys, and none
provides what the other depends on, then a run of both leaves what a run of each leaves alone, one
after the other. The two standard sensors are such a pair. -/
namespace SourceGauge
open SourceGauge.Store (Action ApartFrom)

/-- If no number must precede another, they stay in their order. -/
theorem Order.arrange_of_free {before : Nat → Nat → Bool} (h : ∀ i j, before i j = false)
    (remaining : List Nat) : arrange before remaining = remaining := by
  have hfree (ns : List Nat) : (ns.find? fun i => !ns.any (before · i)) = ns.head? := by
    cases ns <;> simp [h]
  fun_induction arrange before remaining with
  | case1 remaining hnone =>
    rw [hfree, List.head?_eq_none_iff] at hnone
    exact hnone.symm
  | case2 remaining i hi ih =>
    rw [hfree] at hi
    obtain ⟨rest, rfl⟩ := List.head?_eq_some_iff.1 hi
    rw [ih, List.erase_cons_head]

namespace Sensor

/-- What the sensor does in a project. It does the same to every store. -/
def Performs (sensor : Sensor) (project : Project) (actions : List Action) : Prop :=
  ∀ store, sensor.analyse project store = store.performAll actions

theorem baseMetrics_performs (t : FileTree) (project : Project) :
    ∃ actions, (baseMetrics t).Performs project actions ∧ ∀ m, .publish m ∈ actions →
      (∃ path, m.scope = .file path) ∨ m.metric = .complexityDistribution := by
  let read (path : Path) := sourceText project.config.encoding (t.read? path)
  let paths := project.eligible.map (·.path)
  let summary := paths.foldl (SourceSummary.next project.config.functionLimits read) {}
  refine ⟨sourcesActions project.config.functionLimits read paths ++
    [.log ⟨.info, s!"Measured {summary.files} files ({summary.unreadable} unreadable)"⟩],
    fun store => ?_, fun m hm => ?_⟩
  · simp only [baseMetrics, measureSources_actions, Store.performAll_append, Logged.map_eq]
    rfl
  · have hsources : .publish m ∈ sourcesActions project.config.functionLimits read paths := by
      simpa using hm
    exact key_of_mem_sourcesActions _ _ hsources

theorem testResults_performs (t : FileTree) (project : Project) :
    ∃ actions, (testResults t).Performs project actions ∧ ∀ m, .publish m ∈ actions →
      m.scope = .project ∧ m.metric ≠ .complexityDistribution := by
  let dir := ReportsDir.locate project.config.settings project.base
  obtain ⟨actions, results, hmeasures, hcollect⟩ :=
    TestResults.collect_actions dir.value ((TestReports.listing t dir.value).map fun files =>
      files.map fun file => ⟨file, TestResults.readReport t file⟩)
  let parsing : Event := ⟨.info, s!"Parsing test reports in {dir.value.text}"⟩
  let imported : Event := ⟨.info,
    s!"Imported {results.reports.length} reports ({results.failed.length} unparseable): " ++
      s!"{results.counts.tests} tests, {results.counts.failures} failures"⟩
  refine ⟨(dir.log ++ [parsing]).map .log ++ actions ++ [.log imported], fun store => ?_,
    fun m hm => ?_⟩
  · have hcollectIn : TestResults.collectIn t dir.value store =
        ⟨((store.performAll actions).value, results), (store.performAll actions).log⟩ :=
      (hcollect store).trans (Logged.map_eq ..)
    simp only [testResults, Store.performAll_append, Store.performAll_log, bind]
    rw [hcollectIn]
    simp [Store.performAll, Action.perform, Logged.info, Logged.event, bind, pure, parsing,
      imported, dir]
  · obtain ⟨c, hc⟩ := hmeasures m (by simpa using hm)
    exact TestResults.key_of_mem_measures hc

end Sensor

namespace Schedule
variable {s : Schedule} {project : Project}

/-- Sensors that do not feed each other run as they were registered. -/
theorem ordered_of_independent
    (h : s.Pairwise fun a b => a.feeds b = false ∧ b.feeds a = false) : s.ordered = .ok s := by
  have hfree (i j : Nat) : s.before i j = false := by
    rw [← Bool.not_eq_true, before_iff]
    rintro ⟨hne, provider, dependent, capability, hi, hj, hprovides, hdepends⟩
    obtain ⟨hilt, rfl⟩ := List.getElem?_eq_some_iff.1 hi
    obtain ⟨hjlt, rfl⟩ := List.getElem?_eq_some_iff.1 hj
    have hfeeds : s[i].feeds s[j] = true :=
      List.any_eq_true.2 ⟨capability, hdepends, List.contains_iff_mem.2 hprovides⟩
    have hpair := List.pairwise_iff_getElem.1 h
    rcases Nat.lt_or_gt_of_ne hne with hlt | hlt
    · simp [(hpair i j hilt hjlt hlt).1] at hfeeds
    · simp [(hpair j i hjlt hilt hlt).2] at hfeeds
  have hnone : Order.cycle? s.before s.length = none := by
    rw [← Option.not_isSome_iff_eq_none, Order.cycle?_isSome_iff s.within_before]
    rintro ⟨i, j, -, hij, -⟩
    obtain ⟨k, hik, -⟩ := Relation.TransGen.head'_iff.1 hij
    simp [hfree] at hik
  simp only [ordered, hnone]
  rw [Order.countdown_eq_arrange, Order.arrange_of_free hfree, s.pick_range]

/-- What a sensor does in a run, with its own actions given. -/
def sensorActions (project : Project) (sensor : Sensor) (actions : List Action) : List Action :=
  if sensor.shouldExecute project then
    .log ⟨.info, s!"Sensor {sensor.name} started"⟩ :: actions
  else [.log ⟨.info, s!"Sensor {sensor.name} skipped"⟩]

/-- The name of a sensor that wants to execute. -/
def executedName (project : Project) (sensor : Sensor) : List String :=
  if sensor.shouldExecute project then [sensor.name] else []

theorem mem_of_publish_mem_sensorActions {sensor : Sensor} {actions : List Action} {m : Measure}
    (h : .publish m ∈ sensorActions project sensor actions) : .publish m ∈ actions := by
  unfold sensorActions at h
  split at h
  · simpa using h
  · simp at h

theorem runSensor_actions {sensor : Sensor} {actions : List Action}
    (h : sensor.Performs project actions) (store : Store) (executed : List String) :
    runSensor project (store, executed) sensor =
      ⟨((store.performAll (sensorActions project sensor actions)).value,
          executed ++ executedName project sensor),
        (store.performAll (sensorActions project sensor actions)).log⟩ := by
  unfold sensorActions executedName
  by_cases hexecute : sensor.shouldExecute project = true
  · simp only [runSensor, hexecute, if_true, Store.performAll_cons, h store]
    simp [Action.perform, Logged.info, Logged.event, bind, pure]
  · simp only [runSensor, if_neg hexecute, List.append_nil]
    rfl

theorem run_single {sensor : Sensor} {actions : List Action}
    (h : sensor.Performs project actions) (store : Store) :
    run [sensor] project store =
      .ok ⟨((store.performAll (sensorActions project sensor actions)).value,
          executedName project sensor),
        (store.performAll (sensorActions project sensor actions)).log⟩ := by
  rw [run, ordered_of_independent (List.pairwise_singleton _ _), Except.map, List.foldlM_cons,
    runSensor_actions h]
  simp [bind, pure]

/-- Two sensors that save under different keys, with nothing between them to put one first. -/
theorem run_pair {a b : Sensor} {xs ys : List Action} (ha : a.Performs project xs)
    (hb : b.Performs project ys) (hfeeds : a.feeds b = false ∧ b.feeds a = false)
    (hapart : ∀ n m, .publish n ∈ xs → .publish m ∈ ys → n.sameKey m = false) :
    ∃ ra rb, run [a] project .empty = .ok ra ∧ run [b] project .empty = .ok rb ∧
      run [a, b] project .empty =
        .ok ⟨(.holding (ra.value.1.measures ++ rb.value.1.measures), ra.value.2 ++ rb.value.2),
          ra.log ++ rb.log⟩ := by
  have hempty : Store.empty = .holding [] := rfl
  have hnone : ApartFrom (sensorActions project a xs) [] := by simp [ApartFrom]
  obtain ⟨front, log, hfront, hfirst, -⟩ := Store.performAll_behind hnone []
  have hbehind : ApartFrom (sensorActions project b ys) front := fun n hn m hm =>
    hapart n m (mem_of_publish_mem_sensorActions (hfront n hn))
      (mem_of_publish_mem_sensorActions hm)
  obtain ⟨added, log', -, halone, hsecond⟩ := Store.performAll_behind hbehind []
  have hpair : [a, b].Pairwise fun a b => a.feeds b = false ∧ b.feeds a = false := by
    simpa using hfeeds
  refine ⟨_, _, run_single ha .empty, run_single hb .empty, ?_⟩
  rw [run, ordered_of_independent hpair, Except.map, List.foldlM_cons, runSensor_actions ha,
    hempty, hfirst, halone]
  simp only [bind, List.foldlM_cons, runSensor_actions hb]
  rw [List.append_nil] at hsecond
  simp [hsecond, pure]

/-- The standard sensors do not interfere. Whatever the project, its sources and its reports are, a
run of both has the measures of the first alone and then those of the second alone, and it names the
same sensors. Its log is made of the two logs as well, so no save is refused but those that are
refused when the sensor runs alone. -/
theorem run_standard (t : FileTree) (project : Project) :
    ∃ sources reports, run [Sensor.baseMetrics t] project .empty = .ok sources ∧
      run [Sensor.testResults t] project .empty = .ok reports ∧
      run [Sensor.baseMetrics t, Sensor.testResults t] project .empty =
        .ok ⟨(.holding (sources.value.1.measures ++ reports.value.1.measures),
          sources.value.2 ++ reports.value.2), sources.log ++ reports.log⟩ ∧
      run [Sensor.testResults t, Sensor.baseMetrics t] project .empty =
        .ok ⟨(.holding (reports.value.1.measures ++ sources.value.1.measures),
          reports.value.2 ++ sources.value.2), reports.log ++ sources.log⟩ := by
  obtain ⟨xs, hxs, hsources⟩ := Sensor.baseMetrics_performs t project
  obtain ⟨ys, hys, hreports⟩ := Sensor.testResults_performs t project
  have hapart (n m : Measure) (hn : .publish n ∈ xs) (hm : .publish m ∈ ys) :
      n.sameKey m = false ∧ m.sameKey n = false := by
    obtain ⟨hscope, hmetric⟩ := hreports m hm
    rcases hsources n hn with ⟨path, hpath⟩ | hdistribution
    · simp [Measure.sameKey, hscope, hpath, Scope.same]
    · simp [Measure.sameKey, hdistribution, hmetric, Ne.symm hmetric]
  obtain ⟨sources, reports, hfirst, hsecond, hboth⟩ :=
    run_pair hxs hys ⟨rfl, rfl⟩ fun n m hn hm => (hapart n m hn hm).1
  obtain ⟨reports', sources', hsecond', hfirst', hswapped⟩ :=
    run_pair hys hxs ⟨rfl, rfl⟩ fun m n hm hn => (hapart n m hn hm).2
  obtain rfl : reports = reports' := Except.ok.inj (hsecond.symm.trans hsecond')
  obtain rfl : sources = sources' := Except.ok.inj (hfirst.symm.trans hfirst')
  exact ⟨sources, reports, hfirst, hsecond, hboth, hswapped⟩

end Schedule
end SourceGauge
