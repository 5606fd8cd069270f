import Mathlib.Data.List.Induction
import Mathlib.Data.List.Nodup
import SourceGauge.Proofs.Measure.Store
import SourceGauge.Proofs.Sensor.Countdown
import SourceGauge.Proofs.Sensor.Cycle
import SourceGauge.Sensor.Schedule

/-! Schedules. When sensors depend on each other in a circle, the run is refused and the circle is
named. Otherwise they run in the least order that puts every provider first. -/
namespace SourceGauge.Schedule
open SourceGauge.Order

/-- One sensor provides a capability that another one depends on. -/
def Feeds (s : Schedule) (i j : Nat) : Prop :=
  i ≠ j ∧ ∃ provider dependent capability, s[i]? = some provider ∧ s[j]? = some dependent ∧
    capability ∈ provider.provides ∧ capability ∈ dependent.dependsOn

/-- An order of all sensors, by number, with every provider before those that it feeds. -/
structure IsOrder (s : Schedule) (order : List Nat) : Prop where
  perm : order.Perm (List.range s.length)
  providers_first : ∀ i j, s.Feeds i j → order.idxOf i < order.idxOf j

/-- A set of sensors that all depend on each other, directly or through a chain, and on which no
other sensor depends that depends on them. They stand in the order of their registration. -/
structure IsCycle (s : Schedule) (members : List Nat) : Prop where
  sorted : members.Pairwise (· < ·)
  lt_length : ∀ i ∈ members, i < s.length
  one_lt_length : 1 < members.length
  mem_iff : ∀ i ∈ members, ∀ j,
    j ∈ members ↔ j = i ∨ (Relation.TransGen s.Feeds i j ∧ Relation.TransGen s.Feeds j i)

/-- What a caller's store holds after a run. A run that is refused gives no store back, so the
caller keeps the one it had. -/
def storeAfter (s : Schedule) (project : Project) (store : Store) : Store :=
  match s.run project store with
  | .ok result => result.value.1
  | .error _ => store

section Graph
variable (s : Schedule)

theorem before_iff {i j : Nat} : s.before i j = true ↔ s.Feeds i j := by
  unfold before Feeds
  split
  case h_1 provider dependent hi hj =>
    simp only [hi, hj, Bool.and_eq_true, decide_eq_true_eq, Sensor.feeds, List.any_eq_true,
      List.contains_iff_mem, Option.some.injEq]
    refine and_congr_right fun _ => ⟨?_, ?_⟩
    · rintro ⟨capability, hdepends, hprovides⟩
      exact ⟨provider, dependent, capability, rfl, rfl, hprovides, hdepends⟩
    · rintro ⟨_, _, capability, rfl, rfl, hprovides, hdepends⟩
      exact ⟨capability, hdepends, hprovides⟩
  case h_2 hnone =>
    simp only [Bool.false_eq_true, false_iff]
    rintro ⟨-, provider, dependent, _, hi, hj, -⟩
    exact hnone provider dependent hi hj

theorem within_before : Within s.before s.length := by
  intro i j h
  obtain ⟨-, _, _, _, hi, hj, -⟩ := s.before_iff.1 h
  exact ⟨(List.getElem?_eq_some_iff.1 hi).1, (List.getElem?_eq_some_iff.1 hj).1⟩

theorem before_self (i : Nat) : s.before i i = false := by
  rw [← Bool.not_eq_true, before_iff]
  exact fun h => h.1 rfl

theorem leads_iff {i j : Nat} : Leads s.before i j ↔ Relation.TransGen s.Feeds i j := by
  have hrelation : (fun i j => s.before i j = true) = s.Feeds := by
    funext i j
    exact propext s.before_iff
  rw [Leads, hrelation]

/-- Putting providers first is the same as never standing before one that must come earlier. -/
theorem isOrder_iff {order : List Nat} :
    s.IsOrder order ↔ order.Perm (List.range s.length) ∧ Respects s.before order := by
  constructor
  · rintro ⟨hperm, hfirst⟩
    have hnodup : order.Nodup := hperm.nodup_iff.2 List.nodup_range
    refine ⟨hperm, List.pairwise_iff_getElem.2 fun k l hk hl hkl => ?_⟩
    rw [← Bool.not_eq_true, before_iff]
    intro hfeeds
    have hlt := hfirst _ _ hfeeds
    rw [hnodup.idxOf_getElem, hnodup.idxOf_getElem] at hlt
    omega
  · rintro ⟨hperm, hrespects⟩
    refine ⟨hperm, fun i j hfeeds => ?_⟩
    obtain ⟨hi, hj⟩ := s.within_before i j (s.before_iff.2 hfeeds)
    have hi' : i ∈ order := hperm.mem_iff.2 (List.mem_range.2 hi)
    have hj' : j ∈ order := hperm.mem_iff.2 (List.mem_range.2 hj)
    by_contra hnot
    have hne : order.idxOf j ≠ order.idxOf i := fun h =>
      hfeeds.1 ((List.idxOf_inj hj').1 h).symm
    have hfalse := List.pairwise_iff_getElem.1 hrespects (order.idxOf j) (order.idxOf i)
      (List.idxOf_lt_length_iff.2 hj') (List.idxOf_lt_length_iff.2 hi') (by omega)
    rw [List.getElem_idxOf, List.getElem_idxOf, s.before_iff.2 hfeeds] at hfalse
    cases hfalse

theorem pick_range : s.pick (List.range s.length) = s := by
  induction s using List.reverseRecOn with
  | nil => rfl
  | append_singleton s sensor ih =>
    have hold : (List.range s.length).filterMap (fun i => (s ++ [sensor])[i]?) = s := by
      refine (List.filterMap_congr fun i hi => ?_).trans ih
      exact List.getElem?_append_left (List.mem_range.1 hi)
    rw [List.length_append, List.length_singleton, List.range_succ, pick, List.filterMap_append,
      hold]
    simp

/-- Numbers of sensors and the sensors picked for them stand side by side. -/
theorem forall₂_pick {numbers : List Nat} (h : ∀ i ∈ numbers, i < s.length) :
    List.Forall₂ (fun i sensor => s[i]? = some sensor) numbers (s.pick numbers) := by
  induction numbers with
  | nil => exact .nil
  | cons i numbers ih =>
    obtain ⟨hlt, hnumbers⟩ := List.forall_mem_cons.1 h
    have hi : s[i]? = some s[i] := List.getElem?_eq_getElem hlt
    have hpick : s.pick (i :: numbers) = s[i] :: s.pick numbers := List.filterMap_cons_some hi
    rw [hpick]
    exact .cons hi (ih hnumbers)

end Graph

section Ordered
variable {s : Schedule}

theorem ordered_eq_ok {sensors : List Sensor} (h : s.ordered = .ok sensors) :
    cycle? s.before s.length = none ∧ sensors = s.pick (countdown s.before s.length) := by
  unfold ordered at h
  split at h
  case h_1 => cases h
  case h_2 hnone => exact ⟨hnone, (Except.ok.inj h).symm⟩

theorem ordered_eq_error {c : Cycle} (h : s.ordered = .error c) :
    ∃ members, cycle? s.before s.length = some members ∧
      c.names = (s.pick members).map (·.name) := by
  unfold ordered at h
  split at h
  case h_1 members hsome =>
    cases h
    exact ⟨members, hsome, rfl⟩
  case h_2 => cases h

theorem ordered_error_iff :
    (∃ c, s.ordered = .error c) ↔ (cycle? s.before s.length).isSome := by
  unfold ordered
  split
  case h_1 members hsome => simp [hsome]
  case h_2 hnone => simp [hnone]

theorem ordered_perm {sensors : List Sensor} (h : s.ordered = .ok sensors) : sensors.Perm s := by
  obtain ⟨hnone, rfl⟩ := ordered_eq_ok h
  have hacyclic := acyclic_of_cycle?_eq_none s.within_before s.before_self hnone
  have hperm := arrange_perm hacyclic (List.range s.length)
  have hpick : (s.pick (arrange s.before (List.range s.length))).Perm
      (s.pick (List.range s.length)) := hperm.filterMap _
  rwa [s.pick_range, ← countdown_eq_arrange] at hpick

/-- The order of a schedule holds every sensor once, puts every provider of a capability before
the others that depend on it, and is the least such order: where another one first differs, it has
a sensor that was registered later. -/
theorem ordered_least {sensors : List Sensor} (h : s.ordered = .ok sensors) :
    sensors.Perm s ∧ ∃ order, sensors = s.pick order ∧ s.IsOrder order ∧
      ∀ other, s.IsOrder other → ∀ k i j, order[k]? = some i → other[k]? = some j →
        order.take k = other.take k → i ≤ j := by
  refine ⟨ordered_perm h, ?_⟩
  obtain ⟨hnone, rfl⟩ := ordered_eq_ok h
  rw [countdown_eq_arrange]
  have hacyclic := acyclic_of_cycle?_eq_none s.within_before s.before_self hnone
  have hperm := arrange_perm hacyclic (List.range s.length)
  refine ⟨_, rfl, s.isOrder_iff.2 ⟨hperm, arrange_respects _⟩, ?_⟩
  intro other hother k i j hi hj hsame
  obtain ⟨hperm', hrespects⟩ := s.isOrder_iff.1 hother
  exact arrange_least s.before_self List.pairwise_lt_range hperm' hrespects hi hj hsame

/-- Of three sensors, the one that needs coverage runs last though it was registered first. -/
theorem ordered_least_reports_last :
    let reports : Sensor :=
      { name := "reports", provides := [.testResults], dependsOn := [.coverage] }
    let metrics : Sensor := { name := "metrics", provides := [.baseMetrics] }
    let coverage : Sensor := { name := "coverage", provides := [.coverage] }
    let s : Schedule := [reports, metrics, coverage]
    s.ordered = .ok [metrics, coverage, reports] ∧
      [metrics, coverage, reports].Perm s ∧
      ∃ order, [metrics, coverage, reports] = s.pick order ∧ s.IsOrder order := by
  intro reports metrics coverage s
  have hnone : cycle? s.before s.length = none := by decide +kernel
  have horder : countdown s.before s.length = [1, 2, 0] := by decide +kernel
  have h : s.ordered = .ok [metrics, coverage, reports] := by
    simp only [ordered, hnone, horder]
    rfl
  obtain ⟨hperm, order, hpick, hvalid, -⟩ := ordered_least h
  exact ⟨h, hperm, order, hpick, hvalid⟩

/-- A component of mutually reachable sensors is a cycle. -/
theorem isCycle_of_cycle? {members : List Nat} (h : cycle? s.before s.length = some members) :
    s.IsCycle members := by
  obtain ⟨k, rfl, hbig⟩ := firstCycle_some h
  have hwithin := s.within_before
  refine ⟨List.pairwise_lt_range.filter _, fun i hi => ((mem_component hwithin).1 hi).1, hbig,
    fun i hi j => ?_⟩
  rw [← leads_iff, ← leads_iff, ← component_eq hwithin hi, mem_component hwithin]
  constructor
  · exact And.right
  · intro hj
    refine ⟨?_, hj⟩
    rcases hj with rfl | hij
    · exact ((mem_component hwithin).1 hi).1
    · exact (Leads.lt_size hwithin hij.1).2

end Ordered

section Run
variable {s : Schedule}

theorem runSensor_value (project : Project) (store : Store) (executed : List String)
    (sensor : Sensor) :
    (runSensor project (store, executed) sensor).value =
      if sensor.shouldExecute project then
        ((sensor.analyse project store).value, executed ++ [sensor.name])
      else (store, executed) := by
  simp only [runSensor]
  split
  case isTrue => rfl
  case isFalse => rfl

/-- A run over sensors calls those that want to execute, each once and in their order. -/
theorem foldlM_runSensor_value (project : Project) (store : Store) (executed : List String)
    (sensors : List Sensor) :
    (sensors.foldlM (runSensor project) (store, executed)).value =
      ((sensors.filter (·.shouldExecute project)).foldl
          (fun store sensor => (sensor.analyse project store).value) store,
        executed ++ (sensors.filter (·.shouldExecute project)).map (·.name)) := by
  induction sensors generalizing store executed with
  | nil => simp
  | cons sensor sensors ih =>
    rw [List.foldlM_cons, Logged.value_bind, runSensor_value, List.filter_cons]
    split
    case isTrue h => rw [ih]; simp
    case isFalse h => rw [ih]

/-- A schedule is refused exactly when two different sensors depend on each other, and then all
members of one such circle are named as they were registered, nothing runs, and the caller's store
is as it was. Otherwise the order is one of all sensors, and exactly those of them run that want to
execute, each once and in this order, and they are named. -/
theorem ordered_run (s : Schedule) :
    ((∃ c, s.ordered = .error c) ↔
        ∃ i j, i ≠ j ∧ Relation.TransGen s.Feeds i j ∧ Relation.TransGen s.Feeds j i) ∧
      (∀ c, s.ordered = .error c →
        (∃ members, s.IsCycle members ∧
          List.Forall₂ (fun i name => ∃ sensor, s[i]? = some sensor ∧ name = sensor.name)
            members c.names) ∧
          ∀ project store, s.run project store = .error c ∧ s.storeAfter project store = store) ∧
      ∀ sensors, s.ordered = .ok sensors → sensors.Perm s ∧ ∀ project store,
        ∃ result ran, s.run project store = .ok result ∧
          ran = sensors.filter (·.shouldExecute project) ∧
          ran.Perm (s.filter (·.shouldExecute project)) ∧
          result.value.2 = ran.map (·.name) ∧
          result.value.1 = ran.foldl (fun store sensor => (sensor.analyse project store).value)
            store ∧
          s.storeAfter project store = result.value.1 := by
  refine ⟨?_, fun c hc => ⟨?_, fun project store => ?_⟩,
    fun sensors hsensors => ⟨ordered_perm hsensors, fun project store => ?_⟩⟩
  · rw [ordered_error_iff, cycle?_isSome_iff s.within_before]
    simp only [Mutual, leads_iff]
  · obtain ⟨members, hmembers, hnames⟩ := ordered_eq_error hc
    have hcycle := isCycle_of_cycle? hmembers
    refine ⟨members, hcycle, ?_⟩
    rw [hnames, List.forall₂_map_right_iff]
    exact (s.forall₂_pick hcycle.lt_length).imp fun i sensor h => ⟨sensor, h, rfl⟩
  · have hrun : s.run project store = .error c := by simp [run, hc, Except.map]
    exact ⟨hrun, by simp [storeAfter, hrun]⟩
  · have hrun : s.run project store =
        .ok (sensors.foldlM (runSensor project) (store, [])) := by
      simp [run, hsensors, Except.map]
    refine ⟨_, _, hrun, rfl, (ordered_perm hsensors).filter _, ?_, ?_, ?_⟩
    · rw [foldlM_runSensor_value, List.nil_append]
    · rw [foldlM_runSensor_value]
    · simp [storeAfter, hrun]

/-- Two sensors that need each other are named and nothing runs. When the second needs only what it
provides itself, it runs first, and the one of the three that does not want to execute is left
out. -/
theorem ordered_run_refused_accepted :
    let mark (name : String) : Measure := ⟨.file (.ofString name), .fileCount, .ofNat 1⟩
    let tests : Sensor :=
      { name := "tests", provides := [.testResults], dependsOn := [.coverage]
        analyse := fun _ store => store.publish (mark "tests") }
    let metrics : Sensor :=
      { name := "metrics", shouldExecute := Project.hasSources
        analyse := fun _ store => store.publish (mark "metrics") }
    let coverage (needs : Capability) : Sensor :=
      { name := "coverage", provides := [.coverage], dependsOn := [needs]
        analyse := fun _ store => store.publish (mark "coverage") }
    let refused : Schedule := [tests, metrics, coverage .testResults]
    let accepted : Schedule := [tests, metrics, coverage .coverage]
    let project : Project := ⟨.ofString ".", [], .default⟩
    let names : List String := ["tests", "coverage"]
    refused.ordered = .error ⟨names⟩ ∧ refused.run project .empty = .error ⟨names⟩ ∧
      refused.storeAfter project .empty = .empty ∧
      accepted.ordered = .ok [metrics, coverage .coverage, tests] ∧
      ∃ result, accepted.run project .empty = .ok result ∧
        result.value.2 = ["coverage", "tests"] ∧
        result.value.1.measures = [mark "coverage", mark "tests"] := by
  intro mark tests metrics coverage refused accepted project names
  have hcycle : cycle? refused.before refused.length = some [0, 2] := by decide +kernel
  have hrefused : refused.ordered = .error ⟨names⟩ := by
    simp only [ordered, hcycle]
    rfl
  have hnone : cycle? accepted.before accepted.length = none := by decide +kernel
  have horder : countdown accepted.before accepted.length = [1, 2, 0] := by decide +kernel
  have haccepted : accepted.ordered = .ok [metrics, coverage .coverage, tests] := by
    simp only [ordered, hnone, horder]
    rfl
  obtain ⟨-, hall, -⟩ := ordered_run refused
  obtain ⟨hrun, hstore⟩ := (hall _ hrefused).2 project .empty
  obtain ⟨-, -, hany⟩ := ordered_run accepted
  obtain ⟨result, ran, hresult, rfl, -, hnames, hvalue, -⟩ := (hany _ haccepted).2 project .empty
  have hmarks : Measure.Distinct [mark "coverage", mark "tests"] := by
    simp [Measure.Distinct]; decide
  have hsaved := @Store.publishAll_of_distinct [] _ hmarks
  refine ⟨hrefused, hrun, hstore, haccepted, result, hresult, hnames, ?_⟩
  rw [hvalue]
  exact congrArg (·.value.measures) hsaved

end Run

end SourceGauge.Schedule
