import Mathlib
import SourceGauge.Proofs.Path.Spelling

/-! Resolving a path gives its normal form, and a normal form resolves to itself. -/
namespace SourceGauge.Path
open Relation (ReflTransGen)

/-- What is left of a path when all its detours are gone, written in the shortest way. -/
structure IsNormalForm (p out : Path) : Prop where
  normal : IsNormal out.components
  shorter : ReflTransGen Shortens p.components out.components
  written : ofComponents out.components = out

theorem IsNormalForm.normalize_eq {p out : Path} (h : IsNormalForm p out) :
    normalize [] p.components = .ok out.components :=
  (normalize_eq_ok_iff (root_not_mem_tail_components p)).2 ⟨h.normal, h.shorter⟩

/-- What the components are folded to is read back from the path that is written from it. -/
theorem components_ofComponents_of_normalize {p : Path} {cs : List Component}
    (h : normalize [] p.components = .ok cs) : (ofComponents cs).components = cs := by
  obtain ⟨hnormal, hshorter⟩ := (normalize_eq_ok_iff (root_not_mem_tail_components p)).1 h
  refine components_ofComponents hnormal fun c hc => ?_
  exact cases_of_mem_components ((sublist_of_shortens hshorter).subset hc)

theorem isNormalForm_iff {p out : Path} :
    IsNormalForm p out ↔ (normalize [] p.components).map ofComponents = .ok out := by
  constructor
  · intro h
    rw [h.normalize_eq, Except.map, h.written]
  · intro h
    cases hcs : normalize [] p.components with
    | error e =>
      rw [hcs] at h
      cases h
    | ok cs =>
      rw [hcs] at h
      obtain rfl : ofComponents cs = out := Except.ok.inj h
      have hread := components_ofComponents_of_normalize hcs
      obtain ⟨hnormal, hshorter⟩ :=
        (normalize_eq_ok_iff (root_not_mem_tail_components p)).1 hcs
      rw [← hread] at hnormal hshorter
      exact ⟨hnormal, hshorter, by rw [hread]⟩

theorem IsNormalForm.unique {p out out' : Path} (h : IsNormalForm p out)
    (h' : IsNormalForm p out') : out = out' :=
  Except.ok.inj ((isNormalForm_iff.1 h).symm.trans (isNormalForm_iff.1 h'))

theorem exists_isNormalForm_iff {p : Path} :
    (∃ out, IsNormalForm p out) ↔ ¬ EscapesRoot p.components := by
  rw [← normalize_eq_error_iff (root_not_mem_tail_components p)]
  simp only [isNormalForm_iff]
  cases normalize [] p.components <;> simp [Except.map]

/-- A point below a normal form is a detour. -/
theorem IsNormalForm.join_point {p out : Path} (h : IsNormalForm p out) :
    IsNormalForm (out.join (ofString ".")) out where
  normal := h.normal
  written := h.written
  shorter := by
    by_cases hout : out.chars = []
    · obtain rfl : out = ⟨[]⟩ := congrArg Path.mk hout
      exact .single (.point [] [])
    · have hjoin : (out.join (ofString ".")).components = out.components :=
        (components_join hout rfl).trans (List.append_nil _)
      rw [hjoin]

theorem resolve_eq_ok_iff {base p out : Path} :
    resolve base p = .ok out ↔
      (∃ c ∈ p.chars, Text.isBlank c = false) ∧ '\x00' ∉ p.chars ∧
        IsNormalForm (base.join p) out := by
  unfold resolve
  split_ifs with hblank hnul
  · have hall : ¬ ∃ c ∈ p.chars, Text.isBlank c = false := by
      rintro ⟨c, hc, hkept⟩
      simp [List.all_eq_true.1 hblank c hc] at hkept
    simp [hall]
  · have hmem : '\x00' ∈ p.chars := List.contains_iff_mem.1 hnul
    simp [hmem]
  · have hkept : ∃ c ∈ p.chars, Text.isBlank c = false := by simpa using hblank
    have hmem : '\x00' ∉ p.chars := fun h => hnul (List.contains_iff_mem.2 h)
    rw [isNormalForm_iff]
    exact ⟨fun h => ⟨hkept, hmem, h⟩, fun h => h.2.2⟩

/-- What a path resolves to is a fixed point. -/
theorem resolve_point_of_resolve {base p out : Path} (h : resolve base p = .ok out) :
    resolve out (ofString ".") = .ok out :=
  have hnormal := (resolve_eq_ok_iff.1 h).2.2
  resolve_eq_ok_iff.2 ⟨⟨'.', by decide, by decide⟩, by decide, hnormal.join_point⟩

end SourceGauge.Path
