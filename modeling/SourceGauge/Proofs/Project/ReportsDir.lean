import Mathlib
import SourceGauge.Project.ReportsDir
import SourceGauge.Proofs.Path.Resolve

/-! Where the reports of a project are looked for. The configured directory counts in its normal
form, and each way in which it can be unusable leads to the conventional one. -/
namespace SourceGauge

namespace Text
variable {p : Char → Bool} {c : Char} {cs : List Char}

theorem mem_dropWhile_iff (hc : p c = false) : c ∈ cs.dropWhile p ↔ c ∈ cs := by
  have hfront : c ∉ cs.takeWhile p := fun h => by simp [List.mem_takeWhile_imp h] at hc
  conv_rhs => rw [← List.takeWhile_append_dropWhile (p := p) (l := cs), List.mem_append]
  exact (or_iff_right hfront).symm

theorem mem_stripEnds_iff (hc : p c = false) : c ∈ stripEnds p cs ↔ c ∈ cs := by
  rw [stripEnds, List.mem_reverse, mem_dropWhile_iff hc, List.mem_reverse, mem_dropWhile_iff hc]

end Text

namespace ReportsDir

/-- The directory that a value of the setting names, below the base of a project. -/
def named (base : Path) (value : String) : Path := base.join ⟨Text.trim value.toList⟩

/-- The value names no directory: it is blank, or no path, or leads above the root. -/
def Unusable (base : Path) (value : String) : Prop :=
  (∀ c ∈ value.toList, Text.isBlank c = true) ∨ '\x00' ∈ value.toList ∨
    Path.EscapesRoot (named base value).components

section Locate
variable {settings : Settings} {base : Path} {value : String}

theorem locate_of_unset (h : settings.get? settingKey = none) :
    (locate settings base).value = default base := by
  simp [locate, locateWith, configured?, h]

theorem locate_of_set (h : settings.get? settingKey = some value) :
    (locate settings base).value =
      (Path.resolve base ⟨Text.trim value.toList⟩).toOption.getD (default base) := by
  unfold locate locateWith configured?
  rw [h, Option.bind_some]
  by_cases htrim : Text.trim value.toList = []
  · rw [htrim]
    rfl
  · rw [if_neg (by simpa using htrim)]
    dsimp only
    cases Path.resolve base ⟨Text.trim value.toList⟩ <;> rfl

end Locate

theorem resolve_trim_eq_ok_iff {base out : Path} {value : String} :
    Path.resolve base ⟨Text.trim value.toList⟩ = .ok out ↔
      ¬ Unusable base value ∧ (named base value).IsNormalForm out := by
  have hkept : (∃ c ∈ Text.trim value.toList, Text.isBlank c = false) ↔
      ¬ ∀ c ∈ value.toList, Text.isBlank c = true := by
    push Not
    refine exists_congr fun c => ?_
    rw [ne_eq, Bool.not_eq_true, and_congr_left_iff]
    exact fun hc => Text.mem_stripEnds_iff hc
  have hnul : '\x00' ∈ Text.trim value.toList ↔ '\x00' ∈ value.toList :=
    Text.mem_stripEnds_iff (by decide)
  have hstays : (named base value).IsNormalForm out →
      ¬ Path.EscapesRoot (named base value).components :=
    fun h => Path.exists_isNormalForm_iff.1 ⟨out, h⟩
  rw [Path.resolve_eq_ok_iff, hkept, hnul, Unusable, not_or, not_or]
  constructor
  · rintro ⟨hkept, hnul, hnormal⟩
    exact ⟨⟨hkept, hnul, hstays hnormal⟩, hnormal⟩
  · rintro ⟨⟨hkept, hnul, -⟩, hnormal⟩
    exact ⟨hkept, hnul, hnormal⟩

/-- The reports are looked for in the conventional directory when the setting is missing or
unusable, and else in the one normal form of the directory that it names. Every path that
resolution gives is a fixed point of it. -/
theorem locate_value (settings : Settings) (base : Path) :
    (settings.get? settingKey = none →
      (locate settings base).value = base.join (Path.ofString conventional)) ∧
    (∀ value, settings.get? settingKey = some value →
      (Unusable base value →
        (locate settings base).value = base.join (Path.ofString conventional)) ∧
      (¬ Unusable base value → ∀ out,
        (named base value).IsNormalForm out ↔ out = (locate settings base).value)) ∧
    ∀ base p out, Path.resolve base p = .ok out →
      Path.resolve out (Path.ofString ".") = .ok out := by
  refine ⟨locate_of_unset, fun value hvalue => ?_, fun _ _ _ => Path.resolve_point_of_resolve⟩
  rw [locate_of_set hvalue]
  cases hresolve : Path.resolve base ⟨Text.trim value.toList⟩ with
  | ok dir =>
    obtain ⟨husable, hnormal⟩ := resolve_trim_eq_ok_iff.1 hresolve
    refine ⟨fun h => (husable h).elim, fun _ out => ⟨fun h => h.unique hnormal, ?_⟩⟩
    rintro rfl
    exact hnormal
  | error e =>
    refine ⟨fun _ => rfl, fun husable => ?_⟩
    obtain ⟨dir, hnormal⟩ := Path.exists_isNormalForm_iff.2 fun h => husable (.inr (.inr h))
    cases hresolve.symm.trans (resolve_trim_eq_ok_iff.2 ⟨husable, hnormal⟩)

end ReportsDir
end SourceGauge
