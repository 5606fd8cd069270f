import Mathlib
import SourceGauge.Measure.Report
import SourceGauge.Proofs.Distribution.Text
import SourceGauge.Proofs.Number.Form

/-! The text report can be read in one way only. No metric and no value has a space or a line feed
in its text, so the last two spaces of a line part its fields, whatever the path before them holds,
and the line feeds part the lines. -/
namespace SourceGauge

namespace Metric

theorem ofKey?_key (m : Metric) : ofKey? m.key = some m := by
  cases m <;> decide

theorem key_injective : Function.Injective key := by
  intro m n h
  have hm := ofKey?_key m
  rw [h, ofKey?_key] at hm
  exact (Option.some.inj hm).symm

theorem not_mem_key (m : Metric) : ' ' ∉ m.key.toList ∧ '\n' ∉ m.key.toList := by
  cases m <;> decide

end Metric

namespace MeasureValue

theorem not_mem_text (v : MeasureValue) : ' ' ∉ v.text.toList ∧ '\n' ∉ v.text.toList := by
  cases v with
  | count x =>
    have hmarks (c : Char) (hc : c ∈ (MeasureValue.count x).text.toList) : Number.IsMark c := by
      rw [text, String.toList_ofList] at hc
      exact Number.isMark_of_mem_plainText x c hc
    exact ⟨fun h => absurd (hmarks _ h) (by decide), fun h => absurd (hmarks _ h) (by decide)⟩
  | distribution d =>
    exact ⟨Distribution.not_mem_text d (by decide), Distribution.not_mem_text d (by decide)⟩

end MeasureValue

section Separator
variable {c : Char} {xs ys xs' ys' : List Char}

/-- A text is cut at the first separator in one way only. -/
theorem eq_of_append_cons_eq (hxs : c ∉ xs) (hxs' : c ∉ xs')
    (h : xs ++ c :: ys = xs' ++ c :: ys') : xs = xs' ∧ ys = ys' := by
  induction xs generalizing xs' with
  | nil =>
    cases xs' with
    | nil => exact ⟨rfl, (List.cons.inj h).2⟩
    | cons d xs' => exact (hxs' ((List.cons.inj h).1 ▸ List.mem_cons_self)).elim
  | cons d xs ih =>
    cases xs' with
    | nil => exact (hxs ((List.cons.inj h).1 ▸ List.mem_cons_self)).elim
    | cons d' xs' =>
      obtain ⟨rfl, htail⟩ := List.cons.inj h
      obtain ⟨rfl, rfl⟩ := ih (fun hmem => hxs (List.mem_cons_of_mem _ hmem))
        (fun hmem => hxs' (List.mem_cons_of_mem _ hmem)) htail
      exact ⟨rfl, rfl⟩

/-- A text is cut at the last separator in one way only. -/
theorem eq_of_append_cons_eq_last (hys : c ∉ ys) (hys' : c ∉ ys')
    (h : xs ++ c :: ys = xs' ++ c :: ys') : xs = xs' ∧ ys = ys' := by
  have hreverse := congrArg List.reverse h
  simp only [List.reverse_append, List.reverse_cons, List.append_assoc, List.singleton_append]
    at hreverse
  obtain ⟨hback, hfront⟩ := eq_of_append_cons_eq (by simpa using hys) (by simpa using hys') hreverse
  exact ⟨List.reverse_injective hfront, List.reverse_injective hback⟩

end Separator

namespace Scope

/-- The first field of a line. -/
def field : Scope → String
  | .project => "PROJECT"
  | .file p => "FILE " ++ p.text

theorem toList_field_file (p : Path) : (field (.file p)).toList = "FILE ".toList ++ p.chars := by
  rw [field, String.toList_append, Path.text, String.toList_ofList (l := p.chars)]

theorem head?_field (scope : Scope) :
    scope.field.toList.head? = some (if scope = .project then 'P' else 'F') := by
  cases scope with
  | project => decide
  | file p =>
    rw [toList_field_file]
    rfl

theorem field_file_ne_project (p : Path) : field (.file p) ≠ field .project := by
  intro h
  have hhead := head?_field (.file p)
  rw [h, head?_field, if_pos rfl, if_neg nofun] at hhead
  exact absurd hhead (by decide)

theorem field_injective : Function.Injective field := by
  intro a b h
  cases a with
  | project =>
    cases b with
    | project => rfl
    | file q => exact (field_file_ne_project q h.symm).elim
  | file p =>
    cases b with
    | project => exact (field_file_ne_project p h).elim
    | file q =>
      have hchars := congrArg String.toList h
      rw [toList_field_file, toList_field_file] at hchars
      exact congrArg (fun cs => Scope.file ⟨cs⟩) (List.append_cancel_left hchars)

end Scope

namespace Measure

/-- The line of a measure without the line feed. -/
def fields (m : Measure) : List Char :=
  m.scope.field.toList ++ ' ' :: m.metric.key.toList ++ ' ' :: m.value.text.toList

/-- In every line a space stands before the metric and before the value. -/
theorem line_eq (m : Measure) :
    m.line = m.scope.field ++ " " ++ m.metric.key ++ " " ++ m.value.text ++ "\n" := by
  obtain ⟨scope, metric, value⟩ := m
  cases scope with
  | project => rfl
  | file p => rfl

theorem toList_line (m : Measure) : m.line.toList = m.fields ++ ['\n'] := by
  have hspace : " ".toList = [' '] := by decide
  have hbreak : "\n".toList = ['\n'] := by decide
  simp only [line_eq, fields, String.toList_append, hspace, hbreak, List.append_assoc,
    List.cons_append, List.nil_append]

/-- Two measures with the same fields have lines that differ in nothing. -/
structure SameFields (m n : Measure) : Prop where
  scope : m.scope = n.scope
  metric : m.metric = n.metric
  value : m.value.text = n.value.text

/-- The last two spaces part the fields, as only a path may have more of them. -/
theorem fields_eq_iff {m n : Measure} : m.fields = n.fields ↔ SameFields m n := by
  constructor
  · intro h
    obtain ⟨hfront, hvalue⟩ :=
      eq_of_append_cons_eq_last m.value.not_mem_text.1 n.value.not_mem_text.1 h
    obtain ⟨hscope, hmetric⟩ :=
      eq_of_append_cons_eq_last m.metric.not_mem_key.1 n.metric.not_mem_key.1 hfront
    exact ⟨Scope.field_injective (String.toList_injective hscope),
      Metric.key_injective (String.toList_injective hmetric), String.toList_injective hvalue⟩
  · rintro ⟨hscope, hmetric, hvalue⟩
    rw [fields, fields, hscope, hmetric, hvalue]

/-- No path of a file goes over a line. -/
def Unbroken (ms : List Measure) : Prop := ∀ m ∈ ms, ∀ p, m.scope = .file p → '\n' ∉ p.chars

theorem not_mem_fields {m : Measure} (h : ∀ p, m.scope = .file p → '\n' ∉ p.chars) :
    '\n' ∉ m.fields := by
  have hscope : '\n' ∉ m.scope.field.toList := by
    cases hm : m.scope with
    | project => decide
    | file p =>
      rw [Scope.toList_field_file, List.mem_append, not_or]
      exact ⟨by decide, h p hm⟩
  simp [fields, hscope, m.metric.not_mem_key.2, m.value.not_mem_text.2]

theorem toList_textReport {ms : List Measure} (h : ms ≠ []) :
    (textReport ms).toList = ms.flatMap fun m => m.fields ++ ['\n'] := by
  rw [textReport, if_neg (by simpa using h), String.toList_join]
  simp only [List.flatMap_map, toList_line]

/-- Lists of lines without breaks inside are read back from their text. -/
theorem forall₂_sameFields {ms ns : List Measure} (hms : Unbroken ms) (hns : Unbroken ns)
    (h : (ms.flatMap fun m => m.fields ++ ['\n']) = ns.flatMap fun n => n.fields ++ ['\n']) :
    List.Forall₂ SameFields ms ns := by
  induction ms generalizing ns with
  | nil =>
    cases ns with
    | nil => exact .nil
    | cons n ns => simp at h
  | cons m ms ih =>
    cases ns with
    | nil => simp at h
    | cons n ns =>
      obtain ⟨hm, hms⟩ := List.forall_mem_cons.1 hms
      obtain ⟨hn, hns⟩ := List.forall_mem_cons.1 hns
      simp only [List.flatMap_cons, List.append_assoc, List.singleton_append] at h
      obtain ⟨hfields, hrest⟩ := eq_of_append_cons_eq (not_mem_fields hm) (not_mem_fields hn) h
      exact .cons (fields_eq_iff.1 hfields) (ih hms hns hrest)

theorem textReport_ne_of_ne_nil {ms : List Measure} (h : ms ≠ []) :
    textReport ms ≠ textReport [] := by
  obtain ⟨m, ms, rfl⟩ := List.exists_cons_of_ne_nil h
  intro hsame
  have hhead := congrArg (fun s : String => s.toList.head?) hsame
  have hempty : (textReport []).toList.head? = some 'N' := by decide
  simp only [toList_textReport h, List.flatMap_cons, fields, List.append_assoc, List.head?_append,
    Scope.head?_field, Option.some_or, hempty] at hhead
  split at hhead <;> exact absurd hhead (by decide)

theorem textReport_eq_of_sameFields {ms ns : List Measure} (h : List.Forall₂ SameFields ms ns) :
    textReport ms = textReport ns := by
  have hlines : ms.map line = ns.map line := by
    rw [← List.forall₂_eq_eq_eq, List.forall₂_map_left_iff, List.forall₂_map_right_iff]
    refine h.imp fun m n hmn => String.toList_injective ?_
    rw [toList_line, toList_line, fields_eq_iff.2 hmn]
  have hempty : ms.isEmpty = ns.isEmpty := by cases h <;> rfl
  rw [textReport, textReport, hlines, hempty]

/-- Two lists of measures whose paths hold no line feed have the same text exactly if they have the
same length and at each place the same kind of scope, the same path as it is spelled, the same
metric and the same text of the value. Distributions with the same text are the same. -/
theorem textReport_unambiguous :
    (∀ ms ns : List Measure, Unbroken ms → Unbroken ns → (textReport ms = textReport ns ↔
      ms.length = ns.length ∧
        ∀ (i : Nat) (hi : i < ms.length) (hi' : i < ns.length), SameFields ms[i] ns[i])) ∧
      ∀ d e : Distribution, d.text = e.text → d.buckets = e.buckets := by
  refine ⟨fun ms ns hms hns => ?_, fun d e h => congrArg _ (Distribution.text_injective h)⟩
  have hplaces : List.Forall₂ SameFields ms ns ↔ ms.length = ns.length ∧
      ∀ (i : Nat) (hi : i < ms.length) (hi' : i < ns.length), SameFields ms[i] ns[i] :=
    List.forall₂_iff_get
  rw [← hplaces]
  refine ⟨fun h => ?_, textReport_eq_of_sameFields⟩
  by_cases hm : ms = []
  · subst hm
    by_cases hn : ns = []
    · rw [hn]
      exact .nil
    · exact (textReport_ne_of_ne_nil hn h.symm).elim
  · by_cases hn : ns = []
    · subst hn
      exact (textReport_ne_of_ne_nil hm h).elim
    · have hchars := congrArg String.toList h
      rw [toList_textReport hm, toList_textReport hn] at hchars
      exact forall₂_sameFields hms hns hchars

/-- A path that reads like two fields more, and the empty text of a distribution without buckets. -/
theorem textReport_unambiguous_look_alike :
    let lines (spelling : String) : List Measure :=
      [⟨.file (.ofString spelling), .complexityDistribution, .distribution .empty⟩]
    let d := Distribution.ofValues [1, 2] [1]
    let e := Distribution.ofValues [2, 1, 1] [1]
    Unbroken (lines "a complexity-distribution ") ∧ Unbroken (lines "a") ∧
      textReport (lines "a complexity-distribution ") ≠ textReport (lines "a") ∧
      d.text = e.text ∧ d.buckets = e.buckets := by
  intro lines d e
  have hunbroken (spelling : String) (h : '\n' ∉ spelling.toList) : Unbroken (lines spelling) := by
    intro m hm p hp
    obtain rfl := List.mem_singleton.1 hm
    obtain rfl := Scope.file.inj hp
    exact h
  have hlong := hunbroken "a complexity-distribution " (by decide)
  have hshort := hunbroken "a" (by decide)
  have htext : d.text = e.text := by decide
  refine ⟨hlong, hshort, fun h => ?_, htext, textReport_unambiguous.2 d e htext⟩
  obtain ⟨-, hfields⟩ := (textReport_unambiguous.1 _ _ hlong hshort).1 h
  have hpath := (hfields 0 Nat.zero_lt_one Nat.zero_lt_one).scope
  exact absurd hpath (by decide)

end Measure
end SourceGauge
