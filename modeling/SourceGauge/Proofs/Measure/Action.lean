import SourceGauge.Proofs.Measure.Sources
import SourceGauge.Proofs.Tests.Results

/-! What is done to a store, step by step. Measuring sources and collecting test results log and
save the same things whatever the store holds, so measures that were saved before under other keys
change neither what they add nor what they log. -/
namespace SourceGauge

local instance : LawfulMonad Logged :=
  LawfulMonad.mk' Logged
    (fun x => congrArg (Logged.mk x.value) (List.append_nil x.log))
    (fun _ _ => congrArg (Logged.mk _) (List.nil_append _))
    (fun _ _ _ => congrArg (Logged.mk _) (List.append_assoc ..))

theorem Logged.map_eq {α β : Type} (f : α → β) (x : Logged α) :
    f <$> x = ⟨f x.value, x.log⟩ :=
  congrArg (Logged.mk _) (List.append_nil _)

namespace Store

/-- One step of a pipeline. -/
inductive Action
  | log (e : Event)
  | publish (m : Measure)

def Action.perform (s : Store) : Action → Logged Store
  | .log e => ⟨s, [e]⟩
  | .publish m => s.publish m

def performAll (s : Store) (actions : List Action) : Logged Store :=
  actions.foldlM Action.perform s

theorem performAll_cons (s : Store) (action : Action) (actions : List Action) :
    s.performAll (action :: actions) = action.perform s >>= (·.performAll actions) := rfl

theorem performAll_append (s : Store) (xs ys : List Action) :
    s.performAll (xs ++ ys) = s.performAll xs >>= (·.performAll ys) := List.foldlM_append

theorem performAll_log (s : Store) (events : List Event) :
    s.performAll (events.map .log) = ⟨s, events⟩ := by
  induction events with
  | nil => rfl
  | cons e events ih => simp [performAll_cons, Action.perform, bind, ih]

theorem performAll_publish (s : Store) (ms : List Measure) :
    s.performAll (ms.map .publish) = s.publishAll ms := by
  rw [performAll, publishAll, List.foldlM_map]
  rfl

theorem publish_holding (saved : List Measure) (m : Measure) :
    (holding saved).publish m =
      if saved.any (·.sameKey m) then
        ⟨holding saved, [⟨.warn, Duplicate.message ⟨m.scope, m.metric⟩⟩]⟩
      else ⟨holding (saved ++ [m]), []⟩ := by
  unfold publish
  rw [save_holding]
  by_cases hany : saved.any (·.sameKey m) = true
  · rw [if_pos hany, if_pos hany]
    rfl
  · rw [if_neg hany, if_neg hany]
    rfl

/-- No action saves under the key of one of the measures. -/
def ApartFrom (actions : List Action) (front : List Measure) : Prop :=
  ∀ n ∈ front, ∀ m, .publish m ∈ actions → n.sameKey m = false

/-- An action does not see the measures under other keys that were saved before. -/
theorem perform_behind {front : List Measure} {action : Action} (h : ApartFrom [action] front)
    (saved : List Measure) :
    ∃ added log, (∀ m ∈ added, action = .publish m) ∧
      action.perform (holding saved) = ⟨holding (saved ++ added), log⟩ ∧
      action.perform (holding (front ++ saved)) = ⟨holding (front ++ saved ++ added), log⟩ := by
  cases action with
  | log e => exact ⟨[], [e], by simp, by simp [Action.perform], by simp [Action.perform]⟩
  | publish m =>
    have hany : (front ++ saved).any (·.sameKey m) = saved.any (·.sameKey m) := by
      have hnone : front.any (·.sameKey m) = false := by
        simpa using fun n hn => h n hn m List.mem_cons_self
      rw [List.any_append, hnone, Bool.false_or]
    simp only [Action.perform, publish_holding, hany]
    split
    case isTrue => exact ⟨[], _, by simp, by rw [List.append_nil], by rw [List.append_nil]⟩
    case isFalse => exact ⟨[m], [], by simp, rfl, rfl⟩

/-- Nor do any number of actions. -/
theorem performAll_behind {front : List Measure} {actions : List Action}
    (h : ApartFrom actions front) (saved : List Measure) :
    ∃ added log, (∀ m ∈ added, .publish m ∈ actions) ∧
      (holding saved).performAll actions = ⟨holding (saved ++ added), log⟩ ∧
      (holding (front ++ saved)).performAll actions = ⟨holding (front ++ saved ++ added), log⟩ := by
  induction actions generalizing saved with
  | nil => exact ⟨[], [], by simp, by simp [performAll, pure], by simp [performAll, pure]⟩
  | cons action actions ih =>
    have hfirst : ApartFrom [action] front := fun n hn m hm =>
      h n hn m (List.mem_singleton.1 hm ▸ List.mem_cons_self)
    have hrest : ApartFrom actions front := fun n hn m hm => h n hn m (List.mem_cons_of_mem _ hm)
    obtain ⟨first, log, hmem, hsaved, hfront⟩ := perform_behind hfirst saved
    obtain ⟨rest, log', hmem', hsaved', hfront'⟩ := ih hrest (saved ++ first)
    rw [← List.append_assoc] at hfront'
    refine ⟨first ++ rest, log ++ log', fun m hm => ?_, ?_, ?_⟩
    · rcases List.mem_append.1 hm with hm | hm
      · rw [hmem m hm]
        exact List.mem_cons_self
      · exact List.mem_cons_of_mem _ (hmem' m hm)
    · rw [performAll_cons, hsaved]
      simp only [bind, hsaved', List.append_assoc]
    · rw [performAll_cons, hfront]
      simp only [bind, hfront', ← List.append_assoc]

end Store

section Sources
open SourceGauge.Store (Action)
variable (limits : List Nat) (read : Path → Except SourceError (List Char))

/-- What measuring one file does to a store. -/
def sourceActions (path : Path) : List Action :=
  .publish ⟨.file path, .fileCount, .ofNat 1⟩ :: .log (sourceEvent limits read path) ::
    (Measure.ofSource Number.ofNat limits read path).tail.map .publish

/-- What measuring some files does to a store. -/
def sourcesActions (paths : List Path) : List Action :=
  paths.flatMap (sourceActions limits read) ++
    (paths.foldl (SourceSummary.next limits read) {}).functionComplexity.toList.map fun d =>
      .publish ⟨.project, .complexityDistribution, .distribution d⟩

theorem measureSource_actions (store : Store) (summary : SourceSummary) (path : Path) :
    measureSource limits read (store, summary) path =
      (·, summary.next limits read path) <$> store.performAll (sourceActions limits read path) := by
  simp only [sourceActions, Store.performAll_cons, Store.performAll_publish, measureSource,
    Measure.ofSource, sourceEvent, SourceSummary.next, Action.perform, map_bind]
  refine bind_congr fun store => ?_
  cases read path with
  | error e => rfl
  | ok text => simp; rfl

theorem foldlM_measureSource_actions (store : Store) (summary : SourceSummary)
    (paths : List Path) :
    paths.foldlM (measureSource limits read) (store, summary) =
      (·, paths.foldl (SourceSummary.next limits read) summary) <$>
        store.performAll (paths.flatMap (sourceActions limits read)) := by
  induction paths generalizing store summary with
  | nil => rfl
  | cons path paths ih =>
    rw [List.foldlM_cons, measureSource_actions, List.flatMap_cons, Store.performAll_append,
      bind_map_left, map_bind]
    exact bind_congr fun store => ih store _

theorem measureSources_actions (paths : List Path) (store : Store) :
    measureSources limits read paths store =
      (·, paths.foldl (SourceSummary.next limits read) {}) <$>
        store.performAll (sourcesActions limits read paths) := by
  rw [measureSources, foldlM_measureSource_actions, bind_map_left, sourcesActions,
    Store.performAll_append, map_bind]
  refine bind_congr fun store => ?_
  generalize paths.foldl (SourceSummary.next limits read) {} = summary
  cases hd : summary.functionComplexity with
  | none => simp [hd, Store.performAll]
  | some d => simp [hd, Store.performAll, Action.perform]

/-- The measures of a run over sources are about files, or are its distribution. -/
theorem key_of_mem_sourcesActions {paths : List Path} {m : Measure}
    (h : .publish m ∈ sourcesActions limits read paths) :
    (∃ path, m.scope = .file path) ∨ m.metric = .complexityDistribution := by
  rcases List.mem_append.1 h with h | h
  · obtain ⟨path, -, h⟩ := List.mem_flatMap.1 h
    have hsource : m ∈ Measure.ofSource Number.ofNat limits read path := by
      unfold sourceActions at h
      unfold Measure.ofSource at h ⊢
      simpa [MeasureValue.ofNat] using h
    exact .inl ⟨path, Measure.scope_of_mem_ofSource hsource⟩
  · obtain ⟨d, -, h⟩ := List.mem_map.1 h
    cases h
    exact .inr rfl

end Sources

namespace TestResults
open SourceGauge.Store (Action)

/-- The measures of test results are about the project, and none is its distribution. -/
theorem key_of_mem_measures {c : TestCounts} {m : Measure} (h : m ∈ measures c) :
    m.scope = .project ∧ m.metric ≠ .complexityDistribution := by
  unfold measures at h
  obtain ⟨⟨metric, n⟩, hmem, rfl⟩ := List.mem_map.1 h
  refine ⟨rfl, ?_⟩
  rintro rfl
  simp at hmem

/-- What collecting test results does to a store. -/
theorem collect_actions (dir : Path)
    (readings : Except TestReports.ListingError (List Reading)) :
    ∃ (actions : List Action) (results : TestResults),
      (∀ m, .publish m ∈ actions → ∃ c, m ∈ measures c) ∧ ∀ store,
        collect Store.publish dir readings store = (·, results) <$> store.performAll actions := by
  cases readings with
  | error e => cases e <;> exact ⟨[.log _], {}, by simp, fun store => rfl⟩
  | ok readings =>
    refine ⟨(notices dir readings).map .log ++
      (if reportsOf readings = [] then [] else measures (ofReadings readings).counts).map .publish,
      ofReadings readings, fun m hm => ?_, fun store => ?_⟩
    · have hmem : m ∈ if reportsOf readings = [] then []
          else measures (ofReadings readings).counts := by simpa using hm
      split at hmem
      · cases hmem
      · exact ⟨_, hmem⟩
    · rw [collect_ok, Store.performAll_append, Store.performAll_log, Logged.map_eq]
      simp only [Store.performAll_publish, bind]
      by_cases hnone : reportsOf readings = []
      · rw [if_pos hnone, if_pos hnone]
        rfl
      · rw [if_neg hnone, if_neg hnone]
        rfl

end TestResults
end SourceGauge
