import SourceGauge.Measure.Report
import SourceGauge.Measure.Sources
import SourceGauge.Proofs.Distribution.Merge
import SourceGauge.Proofs.Measure.Store
import SourceGauge.Proofs.Number.Nearest

/-! What a run over source files leaves behind. Each file contributes the measures that its own
text determines, and the project contributes one distribution of the complexities of all functions
in files that could be read. -/
namespace SourceGauge
open SourceGauge.Measure (Distinct)

/-- The complexities of the functions in a source text. -/
def functionComplexities (text : List Char) : List Nat :=
  (Scala.CodeMetrics.ofTokens (Scala.tokenize text)).functionComplexities

/-- The texts of the files that can be read, in order. -/
def sourceTexts (read : Path → Except SourceError (List Char)) (paths : List Path) :
    List (List Char) :=
  paths.filterMap fun p => (read p).toOption

/-- The distribution over all functions in some texts, if there are any texts. -/
def projectDistribution (limits : List Nat) (texts : List (List Char)) : Option Distribution :=
  if texts.isEmpty then none
  else some (.ofValues limits (texts.flatMap functionComplexities))

/-- No two paths name the same file. -/
def Path.AllDifferent (paths : List Path) : Prop := paths.Pairwise fun p q => p.same q = false

namespace Measure

/-- The measures that one file contributes, its counts as doubles. A file that cannot be read is
counted as a file, and no more. -/
def ofSource (double : Nat → Float) (limits : List Nat)
    (read : Path → Except SourceError (List Char)) (path : Path) : List Measure :=
  ⟨.file path, .fileCount, .count (double 1)⟩ ::
    match read path with
    | .error _ => []
    | .ok text =>
      let m := Scala.analyze .code limits text
      [(.totalLines, m.lines), (.linesOfCode, m.linesOfCode), (.commentLines, m.commentLines),
        (.classCount, m.classes), (.statementCount, m.statements), (.functionCount, m.functions),
        (.complexityScore, m.complexity), (.publicApiCount, m.publicApi),
        (.undocumentedPublicApiCount, m.undocumentedPublicApi)].map
          fun (metric, n) => ⟨.file path, metric, .count (double n)⟩

/-- The measures that the project contributes. -/
def ofProject (limits : List Nat) (texts : List (List Char)) : List Measure :=
  (projectDistribution limits texts).toList.map fun d =>
    ⟨.project, .complexityDistribution, .distribution d⟩

end Measure

/-- The measures about a scope, in save order. -/
def Store.about (s : Store) (scope : Scope) : List Measure :=
  s.measures.filter (·.scope.same scope)

/-- The summary after one more file. -/
def SourceSummary.next (limits : List Nat) (read : Path → Except SourceError (List Char))
    (summary : SourceSummary) (path : Path) : SourceSummary :=
  let summary := { summary with files := summary.files + 1 }
  match read path with
  | .error _ => { summary with unreadable := summary.unreadable + 1 }
  | .ok text =>
    let d := (Scala.analyze .code limits text).functionComplexity
    { summary with functionComplexity := some (Distribution.mergeInto summary.functionComplexity d) }

/-- What is logged of one file. -/
def sourceEvent (limits : List Nat) (read : Path → Except SourceError (List Char)) (path : Path) :
    Event :=
  match read path with
  | .error e => ⟨.error, s!"Unable to analyse file {path.text}: {e.message path}"⟩
  | .ok text =>
    let m := Scala.analyze .code limits text
    ⟨.debug, s!"{path.text}: {m.lines} lines, {m.linesOfCode} loc, complexity {m.complexity}"⟩

section Run
variable {double : Nat → Float} {limits : List Nat} {read : Path → Except SourceError (List Char)}

theorem Measure.ofSource_of_error {path : Path} {e : SourceError} (h : read path = .error e) :
    ofSource Number.ofNat limits read path = [⟨.file path, .fileCount, .ofNat 1⟩] := by
  rw [ofSource, h]
  rfl

theorem Measure.ofSource_of_ok {path : Path} {text : List Char} (h : read path = .ok text) :
    ofSource Number.ofNat limits read path =
      ⟨.file path, .fileCount, .ofNat 1⟩ ::
        ofFileMetrics path (Scala.analyze .code limits text) := by
  rw [ofSource, h]
  rfl

/-- One file, as long as its measures are new to the store. -/
theorem measureSource_eq {saved : List Measure} (summary : SourceSummary) {path : Path}
    (h : Distinct (saved ++ Measure.ofSource Number.ofNat limits read path)) :
    measureSource limits read (.holding saved, summary) path =
      ⟨(.holding (saved ++ Measure.ofSource Number.ofNat limits read path),
          summary.next limits read path),
        [sourceEvent limits read path]⟩ := by
  have hfirst : (Store.holding saved).publish ⟨.file path, .fileCount, .ofNat 1⟩ =
      pure (.holding (saved ++ [⟨.file path, .fileCount, .ofNat 1⟩])) :=
    Store.publish_of_fresh fun n hn => (List.pairwise_append.1 h).2.2 n hn _ List.mem_cons_self
  cases hread : read path with
  | error e =>
    simp only [measureSource, hfirst, SourceSummary.next, sourceEvent, hread,
      Measure.ofSource_of_error hread]
    rfl
  | ok text =>
    rw [Measure.ofSource_of_ok hread, List.append_cons] at h ⊢
    have hrest := Store.publishAll_of_distinct h
    simp [measureSource, hfirst, SourceSummary.next, sourceEvent, hread, bind, pure, Logged.debug,
      Logged.event, hrest]

/-- Any number of files, as long as no measure of theirs repeats another. -/
theorem foldlM_measureSource {saved : List Measure} (summary : SourceSummary) {paths : List Path}
    (h : Distinct (saved ++ paths.flatMap (Measure.ofSource Number.ofNat limits read))) :
    paths.foldlM (measureSource limits read) (.holding saved, summary) =
      ⟨(.holding (saved ++ paths.flatMap (Measure.ofSource Number.ofNat limits read)),
          paths.foldl (SourceSummary.next limits read) summary),
        paths.map (sourceEvent limits read)⟩ := by
  induction paths generalizing saved summary with
  | nil => simp [pure]
  | cons path paths ih =>
    rw [List.flatMap_cons, ← List.append_assoc] at h ⊢
    have hstep := measureSource_eq summary (List.pairwise_append.1 h).1
    rw [List.foldlM_cons, hstep]
    simp only [bind, ih _ h, List.foldl_cons, List.map_cons, List.singleton_append]

theorem files_foldl_next (summary : SourceSummary) (paths : List Path) :
    (paths.foldl (SourceSummary.next limits read) summary).files =
      summary.files + paths.length := by
  induction paths generalizing summary with
  | nil => rfl
  | cons path paths ih =>
    have hstep : (summary.next limits read path).files = summary.files + 1 := by
      unfold SourceSummary.next; split <;> rfl
    rw [List.foldl_cons, ih, hstep, List.length_cons]
    omega

theorem unreadable_foldl_next (summary : SourceSummary) (paths : List Path) :
    (paths.foldl (SourceSummary.next limits read) summary).unreadable =
      summary.unreadable + paths.countP fun p => (read p).toOption.isNone := by
  induction paths generalizing summary with
  | nil => rfl
  | cons path paths ih =>
    rw [List.foldl_cons, ih, List.countP_cons, SourceSummary.next]
    cases read path with
    | error e => simp only [Except.toOption, Option.isNone_none, if_true]; omega
    | ok text => simp [Except.toOption]

/-- Merging in the distribution of one more text gives the distribution of all texts. -/
theorem mergeInto_projectDistribution (hlimits : limits ≠ []) (texts : List (List Char))
    (text : List Char) :
    some (Distribution.mergeInto (projectDistribution limits texts)
      (.ofValues limits (functionComplexities text))) =
      projectDistribution limits (texts ++ [text]) := by
  cases texts with
  | nil => simp [projectDistribution, Distribution.mergeInto]
  | cons first rest =>
    have happend := Distribution.ofValues_append hlimits
      ((first :: rest).flatMap functionComplexities) (functionComplexities text)
    simp only [projectDistribution, Distribution.mergeInto, List.cons_append, List.isEmpty_cons,
      Bool.false_eq_true, if_false, ← happend]
    simp

theorem functionComplexity_foldl_next (hlimits : limits ≠ []) {summary : SourceSummary}
    {texts : List (List Char)} (h : summary.functionComplexity = projectDistribution limits texts)
    (paths : List Path) :
    (paths.foldl (SourceSummary.next limits read) summary).functionComplexity =
      projectDistribution limits (texts ++ sourceTexts read paths) := by
  induction paths generalizing summary texts with
  | nil => simpa [sourceTexts] using h
  | cons path paths ih =>
    rw [List.foldl_cons]
    cases hread : read path with
    | error e =>
      have hnext : (summary.next limits read path).functionComplexity =
          projectDistribution limits texts := by
        rw [← h, SourceSummary.next, hread]
      rw [ih hnext]
      simp [sourceTexts, hread, Except.toOption]
    | ok text =>
      have hnext : (summary.next limits read path).functionComplexity =
          projectDistribution limits (texts ++ [text]) := by
        rw [← mergeInto_projectDistribution hlimits, ← h, SourceSummary.next, hread]
        rfl
      rw [ih hnext]
      simp [sourceTexts, hread, Except.toOption]

/-- The project distribution depends only on which texts there are, not on their order. -/
theorem projectDistribution_perm (hlimits : limits ≠ []) {xs ys : List (List Char)}
    (h : xs.Perm ys) : projectDistribution limits xs = projectDistribution limits ys := by
  have hvalues := Distribution.ofValues_perm hlimits (h.flatMap_right functionComplexities)
  rw [projectDistribution, projectDistribution, hvalues, h.isEmpty_eq]

theorem Measure.scope_of_mem_ofSource {path : Path} {m : Measure}
    (h : m ∈ Measure.ofSource double limits read path) : m.scope = .file path := by
  rcases List.mem_cons.1 h with rfl | h
  · rfl
  · split at h
    · cases h
    · obtain ⟨entry, _, rfl⟩ := List.mem_map.1 h
      rfl

theorem Measure.scope_of_mem_ofProject {texts : List (List Char)} {m : Measure}
    (h : m ∈ Measure.ofProject limits texts) : m.scope = .project := by
  obtain ⟨d, _, rfl⟩ := List.mem_map.1 h
  rfl

/-- The measures of one file have different metrics. -/
theorem Measure.distinct_ofSource (path : Path) :
    Distinct (Measure.ofSource double limits read path) := by
  have hmetrics : ((Measure.ofSource double limits read path).map (·.metric)).Nodup := by
    unfold Measure.ofSource
    cases read path with
    | error e => simp
    | ok text => simp
  apply (List.pairwise_map.1 hmetrics).imp
  intro m n hne
  simp [Measure.sameKey, hne]

/-- No measure of a run is saved twice. -/
theorem distinct_run {paths : List Path} (hpaths : Path.AllDifferent paths)
    (texts : List (List Char)) :
    Distinct (paths.flatMap (Measure.ofSource double limits read) ++
      Measure.ofProject limits texts) := by
  refine List.pairwise_append.2 ⟨List.pairwise_flatMap.2 ⟨?_, ?_⟩, ?_, ?_⟩
  · intro path _
    exact Measure.distinct_ofSource path
  · apply hpaths.imp
    intro p q hpq m hm n hn
    rw [Measure.sameKey, Measure.scope_of_mem_ofSource hm, Measure.scope_of_mem_ofSource hn]
    simp [Scope.same, hpq]
  · unfold Measure.ofProject
    cases projectDistribution limits texts <;> simp
  · intro m hm n hn
    obtain ⟨path, _, hm⟩ := List.mem_flatMap.1 hm
    rw [Measure.sameKey, Measure.scope_of_mem_ofSource hm, Measure.scope_of_mem_ofProject hn]
    rfl

theorem Path.same_comm (p q : Path) : p.same q = q.same p := by
  simp [Path.same, eq_comm]

theorem Path.same_self (p : Path) : p.same p = true := by simp [Path.same]

/-- The measures of a file are all about that file. -/
theorem filter_ofSource (path : Path) (scope : Scope) :
    (Measure.ofSource double limits read path).filter (·.scope.same scope) =
      if (Scope.file path).same scope then Measure.ofSource double limits read path else [] := by
  split
  case isTrue h =>
    rw [List.filter_eq_self]
    intro m hm
    rwa [Measure.scope_of_mem_ofSource hm]
  case isFalse h =>
    rw [List.filter_eq_nil_iff]
    intro m hm
    rwa [Measure.scope_of_mem_ofSource hm]

/-- Of the measures of all files, those about one file are its own. -/
theorem filter_flatMap_ofSource {paths : List Path} (hpaths : Path.AllDifferent paths)
    {path : Path} (h : path ∈ paths) :
    (paths.flatMap (Measure.ofSource double limits read)).filter (·.scope.same (.file path)) =
      Measure.ofSource double limits read path := by
  induction paths with
  | nil => cases h
  | cons p paths ih =>
    obtain ⟨hp, hrest⟩ := List.pairwise_cons.1 hpaths
    rw [List.flatMap_cons, List.filter_append, filter_ofSource]
    rcases List.mem_cons.1 h with rfl | h
    · have hothers : (paths.flatMap (Measure.ofSource double limits read)).filter
          (·.scope.same (.file path)) = [] := by
        rw [List.filter_flatMap, List.flatMap_eq_nil_iff]
        intro q hq
        rw [filter_ofSource, if_neg]
        simp [Scope.same, Path.same_comm q, hp q hq]
      rw [hothers, List.append_nil]
      exact if_pos (Path.same_self path)
    · rw [ih hrest h, if_neg, List.nil_append]
      simp [Scope.same, hp path h]

/-- The store and the summary after a run that begins with nothing. -/
theorem measureSources_eq (hlimits : limits ≠ []) {paths : List Path}
    (hpaths : Path.AllDifferent paths) :
    measureSources limits read paths .empty =
      ⟨(.holding (paths.flatMap (Measure.ofSource Number.ofNat limits read) ++
            Measure.ofProject limits (sourceTexts read paths)),
          paths.foldl (SourceSummary.next limits read) {}),
        paths.map (sourceEvent limits read)⟩ := by
  have hdistinct : Distinct (paths.flatMap (Measure.ofSource Number.ofNat limits read) ++
      Measure.ofProject limits (sourceTexts read paths)) := distinct_run hpaths _
  have hfiles := @foldlM_measureSource limits read [] {} _ (List.pairwise_append.1 hdistinct).1
  have hproject : (paths.foldl (SourceSummary.next limits read) {}).functionComplexity =
      projectDistribution limits ([] ++ sourceTexts read paths) :=
    functionComplexity_foldl_next hlimits rfl paths
  have hempty : Store.empty = .holding [] := rfl
  simp only [measureSources, hempty, hfiles, bind, hproject, List.nil_append]
  cases hd : projectDistribution limits (sourceTexts read paths) with
  | none => simp [Measure.ofProject, hd, pure]
  | some d =>
    rw [Measure.ofProject, hd] at hdistinct ⊢
    have hpublish :
        (Store.holding (paths.flatMap (Measure.ofSource Number.ofNat limits read))).publish
          ⟨.project, .complexityDistribution, .distribution d⟩ =
        pure (.holding (paths.flatMap (Measure.ofSource Number.ofNat limits read) ++
          [⟨.project, .complexityDistribution, .distribution d⟩])) :=
      Store.publish_of_fresh fun n hn =>
        (List.pairwise_append.1 hdistinct).2.2 n hn _ List.mem_cons_self
    simp [hpublish, pure]

theorem about_project (paths : List Path) (texts : List (List Char)) :
    (paths.flatMap (Measure.ofSource double limits read) ++ Measure.ofProject limits texts).filter
      (·.scope.same .project) = Measure.ofProject limits texts := by
  have hfiles : (paths.flatMap (Measure.ofSource double limits read)).filter
      (·.scope.same .project) = [] := by
    rw [List.filter_flatMap, List.flatMap_eq_nil_iff]
    intro path _
    rw [filter_ofSource]
    exact if_neg Bool.false_ne_true
  rw [List.filter_append, hfiles, List.nil_append, List.filter_eq_self]
  intro m hm
  rw [Measure.scope_of_mem_ofProject hm]
  rfl

theorem about_file {paths : List Path} (hpaths : Path.AllDifferent paths) {path : Path}
    (h : path ∈ paths) (texts : List (List Char)) :
    (paths.flatMap (Measure.ofSource double limits read) ++ Measure.ofProject limits texts).filter
      (·.scope.same (.file path)) = Measure.ofSource double limits read path := by
  have hproject : (Measure.ofProject limits texts).filter (·.scope.same (.file path)) = [] := by
    rw [List.filter_eq_nil_iff]
    intro m hm
    rw [Measure.scope_of_mem_ofProject hm]
    exact Bool.false_ne_true
  rw [List.filter_append, hproject, List.append_nil, filter_flatMap_ofSource hpaths h]

theorem Path.AllDifferent.perm {paths others : List Path} (h : Path.AllDifferent paths)
    (hperm : others.Perm paths) : Path.AllDifferent others := by
  apply (hperm.pairwise_iff _).2 h
  intro p q hpq
  rwa [Path.same_comm]

/-- Two runs over different files that read the same texts agree on the project, and on every file
that both have. -/
theorem about_eq_of_sourceTexts_perm (hlimits : limits ≠ []) {paths others : List Path}
    (hpaths : Path.AllDifferent paths) (hothers : Path.AllDifferent others)
    (hsubset : paths ⊆ others)
    (htexts : (sourceTexts read others).Perm (sourceTexts read paths)) {scope : Scope}
    (h : scope ∈ .project :: paths.map .file) :
    (measureSources limits read others .empty).value.1.about scope =
      (measureSources limits read paths .empty).value.1.about scope := by
  rw [measureSources_eq hlimits hpaths, measureSources_eq hlimits hothers]
  rcases List.mem_cons.1 h with rfl | h
  · simp only [Store.about, about_project]
    rw [Measure.ofProject, Measure.ofProject, projectDistribution_perm hlimits htexts]
  · obtain ⟨path, hpath, rfl⟩ := List.mem_map.1 h
    simp only [Store.about, about_file hpaths hpath, about_file hothers (hsubset hpath)]

/-- The measures of a run over different files: those of each file in turn, with each count as the
double nearest to it, then the distribution of all functions that were read. No save is refused, as
that would be logged as a warning. Neither the order of the files nor one more file that cannot be
read changes what is measured of the project or of another file. -/
theorem measureSources_empty (hlimits : limits ≠ []) {paths : List Path}
    (hpaths : Path.AllDifferent paths) : ∃ double : Nat → Float,
    (∀ n : Nat, Number.IsNearest false n (.ofFloat (double n))) ∧
      (measureSources limits read paths .empty).value.1.measures =
        paths.flatMap (Measure.ofSource double limits read) ++
          Measure.ofProject limits (sourceTexts read paths) ∧
      (∀ e ∈ (measureSources limits read paths .empty).log, e.level ≠ .warn) ∧
      (measureSources limits read paths .empty).value.2.files = paths.length ∧
      (measureSources limits read paths .empty).value.2.unreadable =
        paths.countP (fun p => (read p).toOption.isNone) ∧
      ∀ others : List Path, others.Perm paths ∨
          (∃ q, (∀ p ∈ paths, p.same q = false) ∧ (read q).toOption = none ∧
            others.Perm (q :: paths)) →
        ∀ scope ∈ .project :: paths.map .file,
          (measureSources limits read others .empty).value.1.about scope =
            (measureSources limits read paths .empty).value.1.about scope := by
  have hrun : measureSources limits read paths .empty = _ := measureSources_eq hlimits hpaths
  refine ⟨Number.ofNat, Number.isNearest_ofNat, by rw [hrun], ?_, ?_, ?_, ?_⟩
  · rw [hrun]
    intro e he
    obtain ⟨path, _, rfl⟩ := List.mem_map.1 he
    unfold sourceEvent
    split <;> simp
  · rw [hrun]
    exact (files_foldl_next {} paths).trans (Nat.zero_add _)
  · rw [hrun]
    exact (unreadable_foldl_next {} paths).trans (Nat.zero_add _)
  · rintro others (hperm | ⟨q, hq, hread, hperm⟩) scope hscope
    · exact about_eq_of_sourceTexts_perm hlimits hpaths (hpaths.perm hperm) hperm.symm.subset
        (hperm.filterMap _) hscope
    · have hall : Path.AllDifferent (q :: paths) :=
        List.pairwise_cons.2 ⟨fun p hp => by rw [Path.same_comm, hq p hp], hpaths⟩
      have htexts : sourceTexts read (q :: paths) = sourceTexts read paths := by
        simp [sourceTexts, hread]
      refine about_eq_of_sourceTexts_perm hlimits hpaths (hall.perm hperm) ?_ ?_ hscope
      · exact fun p hp => hperm.symm.subset (List.mem_cons_of_mem q hp)
      · rw [← htexts]
        exact hperm.filterMap _

end Run

/-- A run over a file with a documented class and a function, and a file that cannot be read. -/
theorem measureSources_empty_readable_unreadable :
    let text := "/** a\n * b */\nclass A\n\ndef f(x: Int) =\n  if (x > 0) x else 1\n" ++
      "private val y = f(3) // c"
    let read (path : Path) : Except SourceError (List Char) :=
      if path.text = "a.scala" then .ok text.toList else .error .unreadable
    let paths : List Path := [.ofString "a.scala", .ofString "./b.scala"]
    let run := measureSources [1, 2] read paths .empty
    [1, 2] ≠ [] ∧ Path.AllDifferent paths ∧
      run.value.1.measures.map (fun m => (m.scope.text, m.metric.key, m.value.text)) =
        [("a.scala", "file-count", "1"), ("a.scala", "total-lines", "7"),
          ("a.scala", "lines-of-code", "4"), ("a.scala", "comment-lines", "3"),
          ("a.scala", "class-count", "1"), ("a.scala", "statement-count", "1"),
          ("a.scala", "function-count", "1"), ("a.scala", "complexity-score", "2"),
          ("a.scala", "public-api-count", "2"), ("a.scala", "undocumented-public-api-count", "1"),
          ("./b.scala", "file-count", "1"), ("<project>", "complexity-distribution", "1=0;2=1")] ∧
      run.value.2.files = 2 ∧ run.value.2.unreadable = 1 := by
  intro text read paths run
  have hlimits : [1, 2] ≠ [] := by decide
  have hpaths : Path.AllDifferent paths := by
    simp [Path.AllDifferent, paths]; decide
  obtain ⟨double, hdouble, hmeasures, -, hfiles, hunreadable, -⟩ :=
    @measureSources_empty [1, 2] read hlimits _ hpaths
  obtain rfl := Number.eq_ofNat_of_isNearest hdouble
  have hmetrics : Scala.analyze .code [1, 2] text.toList =
      ⟨7, 4, 3, 1, 1, 1, 2, 2, 1, .ofValues [1, 2] [2]⟩ := by decide +kernel
  have hfirst : Measure.ofSource Number.ofNat [1, 2] read (.ofString "a.scala") = _ :=
    Measure.ofSource_of_ok rfl
  have hsecond : Measure.ofSource Number.ofNat [1, 2] read (.ofString "./b.scala") = _ :=
    Measure.ofSource_of_error rfl
  have htexts : sourceTexts read paths = [text.toList] := by rfl
  have hproject : projectDistribution [1, 2] (sourceTexts read paths) =
      some (Scala.analyze .code [1, 2] text.toList).functionComplexity := by
    simp [htexts, projectDistribution, functionComplexities, Scala.analyze]
  rw [hmetrics] at hfirst hproject
  refine ⟨hlimits, hpaths, ?_, hfiles, hunreadable.trans (by rfl)⟩
  rw [hmeasures, Measure.ofProject, hproject, List.flatMap_cons, List.flatMap_singleton, hfirst,
    hsecond]
  decide +kernel

end SourceGauge
