import Mathlib
import SourceGauge.Measure.Report
import SourceGauge.Proofs.Measure.History
import SourceGauge.Proofs.Path.Below

/-! The measures of a report: those of the project come first, and a file below the root is shown
by what is left of its path. Files of one store stay apart in the report if all lie below the
root. -/
namespace SourceGauge.Measure
open SourceGauge.Store (afterSaves)

/-- The measures are the same, but a path below the root is shown without it. -/
structure ShownAs (root : Path) (m shown : Measure) : Prop where
  metric : shown.metric = m.metric
  value : shown.value = m.value
  project : m.scope = .project → shown.scope = .project
  below : ∀ p, m.scope = .file p → root.components <+: p.components →
    ∃ rest, shown.scope = .file rest ∧ Path.IsRest root p rest
  elsewhere : ∀ p, m.scope = .file p → ¬ root.components <+: p.components →
    shown.scope = .file p

/-- Every file among the measures lies below the root. -/
def AllBelow (root : Path) (ms : List Measure) : Prop :=
  ∀ m ∈ ms, ∀ p, m.scope = .file p → root.components <+: p.components

section Shown
variable {root : Path} {m n m' n' : Measure} {ms : List Measure}

theorem shownAs_relativeTo (root : Path) (m : Measure) : ShownAs root m (m.relativeTo root) := by
  obtain ⟨scope, metric, value⟩ := m
  cases scope with
  | project => exact ⟨rfl, rfl, fun _ => rfl, nofun, nofun⟩
  | file p =>
    refine ⟨rfl, rfl, nofun, ?_, ?_⟩
    · rintro _ ⟨⟩ hbelow
      cases hrest : p.below? root with
      | none => exact (Path.below?_eq_none_iff.1 hrest hbelow).elim
      | some rest =>
        refine ⟨rest, ?_, Path.isRest_of_below? hrest⟩
        change Scope.file ((p.below? root).getD p) = _
        rw [hrest, Option.getD_some]
    · rintro _ ⟨⟩ helsewhere
      change Scope.file ((p.below? root).getD p) = _
      rw [Path.below?_eq_none_iff.2 helsewhere, Option.getD_none]

theorem isProject_iff : m.isProject = true ↔ m.scope = .project := by
  rw [isProject]
  cases m.scope <;> simp

theorem ShownAs.scope_eq_project_iff (h : ShownAs root m m') :
    m'.scope = .project ↔ m.scope = .project := by
  refine ⟨fun hproject => ?_, h.project⟩
  cases hscope : m.scope with
  | project => rfl
  | file p =>
    by_cases hbelow : root.components <+: p.components
    · obtain ⟨rest, hrest, -⟩ := h.below p hscope hbelow
      cases hproject.symm.trans hrest
    · cases hproject.symm.trans (h.elsewhere p hscope hbelow)

/-- What is shown for a file below the root is the rest of its path. -/
theorem ShownAs.exists_isRest (h : ShownAs root m m') {rest : Path}
    (hroot : ∀ p, m.scope = .file p → root.components <+: p.components)
    (hfile : m'.scope = .file rest) : ∃ p, m.scope = .file p ∧ Path.IsRest root p rest := by
  cases hscope : m.scope with
  | project => cases hfile.symm.trans (h.project hscope)
  | file p =>
    obtain ⟨rest', hrest', hleft⟩ := h.below p hscope (hroot p hscope)
    obtain rfl := Scope.file.inj (hfile.symm.trans hrest')
    exact ⟨p, rfl, hleft⟩

theorem sameKey_iff : m.sameKey n = true ↔ m.scope.same n.scope = true ∧ m.metric = n.metric := by
  rw [sameKey, Bool.and_eq_true, decide_eq_true_iff]

theorem sameKey_symm (h : m.sameKey n = false) : n.sameKey m = false := by
  have hkeys : (m.key == n.key) = false := h
  exact BEq.symm_false hkeys

/-- Measures that are shown under one key have one key. -/
theorem sameKey_of_shownAs (hm : ShownAs root m m') (hn : ShownAs root n n')
    (hmroot : ∀ p, m.scope = .file p → root.components <+: p.components)
    (hnroot : ∀ p, n.scope = .file p → root.components <+: p.components)
    (h : m'.sameKey n' = true) : m.sameKey n = true := by
  obtain ⟨hscope, hmetric⟩ := sameKey_iff.1 h
  refine sameKey_iff.2 ⟨Scope.same_iff.2 ?_, by rw [← hm.metric, hmetric, hn.metric]⟩
  rcases Scope.same_iff.1 hscope with ⟨hm', hn'⟩ | ⟨rest, rest', hm', hn', hsame⟩
  · exact .inl ⟨hm.scope_eq_project_iff.1 hm', hn.scope_eq_project_iff.1 hn'⟩
  · obtain ⟨p, hp, hrest⟩ := hm.exists_isRest hmroot hm'
    obtain ⟨q, hq, hrest'⟩ := hn.exists_isRest hnroot hn'
    exact .inr ⟨p, q, hp, hq, by rw [hrest.components, hrest'.components, hsame]⟩

theorem reportOrder_perm (root : Path) (ms : List Measure) :
    (reportOrder root ms).Perm (ms.map (relativeTo root)) :=
  (List.filter_append_perm isProject ms).map _

/-- Measures with different keys are shown under different keys. -/
theorem distinct_reportOrder (hdistinct : Distinct ms) (hroot : AllBelow root ms) :
    Distinct (reportOrder root ms) := by
  rw [Distinct, (reportOrder_perm root ms).pairwise_iff sameKey_symm, List.pairwise_map]
  refine hdistinct.imp_of_mem fun {m n} hm hn hmn => ?_
  rw [← Bool.not_eq_true] at hmn ⊢
  exact fun h => hmn (sameKey_of_shownAs (shownAs_relativeTo root m) (shownAs_relativeTo root n)
    (hroot m hm) (hroot n hn) h)

theorem filter_scope_eq_project (ms : List Measure) :
    ms.filter (·.scope = .project) = ms.filter isProject :=
  List.filter_congr fun m _ => by rw [Bool.eq_iff_iff, decide_eq_true_iff, isProject_iff]

theorem filter_scope_ne_project (ms : List Measure) :
    ms.filter (·.scope ≠ .project) = ms.filter (!·.isProject) :=
  List.filter_congr fun m _ => by simp [← isProject_iff]

theorem pairwise_reportOrder (root : Path) (ms : List Measure) :
    (reportOrder root ms).Pairwise fun m n => n.scope = .project → m.scope = .project := by
  have hshown (m : Measure) : (m.relativeTo root).scope = .project ↔ m.isProject = true :=
    (shownAs_relativeTo root m).scope_eq_project_iff.trans isProject_iff.symm
  rw [reportOrder, List.pairwise_map]
  simp only [hshown]
  have hproject (m : Measure) (hm : m ∈ ms.filter isProject) : m.isProject = true :=
    (List.mem_filter.1 hm).2
  refine List.pairwise_append.2 ⟨?_, ?_, fun m hm n _ _ => hproject m hm⟩
  · exact List.pairwise_of_forall_mem_list fun m hm n _ _ => hproject m hm
  · refine List.pairwise_of_forall_mem_list fun m _ n hn hnproject => ?_
    have hfile := (List.mem_filter.1 hn).2
    rw [hnproject] at hfile
    cases hfile

end Shown

/-- A report has one measure for each measure, those of the project first and otherwise in the same
order, and shows them as they are but for the paths below the root. Of a store whose files all lie
below the root it shows no two measures under one key. -/
theorem reportOrder_shows (root : Path) (ms : List Measure) :
    (reportOrder root ms).length = ms.length ∧
      ((reportOrder root ms).Pairwise fun m n => n.scope = .project → m.scope = .project) ∧
      (∃ order : List Measure, order.Perm ms ∧
        (ms.filter (·.scope = .project)).Sublist order ∧
        (ms.filter (·.scope ≠ .project)).Sublist order ∧
        List.Forall₂ (ShownAs root) order (reportOrder root ms)) ∧
      ∀ saved : List Measure, AllBelow root (afterSaves saved).measures →
        Distinct (reportOrder root (afterSaves saved).measures) := by
  refine ⟨?_, pairwise_reportOrder root ms, ⟨ms.filter isProject ++ ms.filter (!·.isProject),
    List.filter_append_perm isProject ms, ?_, ?_, ?_⟩, fun saved hroot => ?_⟩
  · rw [(reportOrder_perm root ms).length_eq, List.length_map]
  · rw [filter_scope_eq_project]
    exact List.sublist_append_left _ _
  · rw [filter_scope_ne_project]
    exact List.sublist_append_right _ _
  · exact List.forall₂_map_right_iff.2 (List.forall₂_same.2 fun m _ => shownAs_relativeTo root m)
  · rw [Store.afterSaves_eq] at hroot ⊢
    exact distinct_reportOrder (Store.distinct_newAfter saved) hroot

/-- Two files below a root that is spelled in another way, and a measure of the project. -/
theorem reportOrder_shows_two_files :
    let file (spelling : String) (n : Nat) : Measure :=
      ⟨.file (.ofString spelling), .linesOfCode, .ofNat n⟩
    let saved : List Measure :=
      [file "/p/a//b" 1, ⟨.project, .linesOfCode, .ofNat 3⟩, file "/p//c/" 2]
    AllBelow (.ofString "/p/.") (afterSaves saved).measures ∧
      Distinct (reportOrder (.ofString "/p/.") (afterSaves saved).measures) := by
  intro file saved
  have hmeasures : (afterSaves saved).measures = saved := by
    rw [Store.afterSaves_eq]
    rfl
  have hroot : AllBelow (.ofString "/p/.") (afterSaves saved).measures := by
    rw [hmeasures]
    intro m hm p hp
    simp only [saved, List.mem_cons, List.not_mem_nil, or_false] at hm
    rcases hm with rfl | rfl | rfl
    · obtain rfl := Scope.file.inj hp
      decide +kernel
    · cases hp
    · obtain rfl := Scope.file.inj hp
      decide +kernel
  exact ⟨hroot, (reportOrder_shows (.ofString "/p/.") []).2.2.2 saved hroot⟩

end SourceGauge.Measure
