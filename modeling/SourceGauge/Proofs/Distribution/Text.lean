import Mathlib
import SourceGauge.Distribution
import SourceGauge.Proofs.Number.Form

/-! The text of a distribution is read back in one way only: semicolons part the buckets, and an
equals sign parts the bound of a bucket from its count. -/
namespace SourceGauge
open Number (natText)

namespace Bucket

/-- The text of one bucket. -/
def chars (bucket : Nat × Nat) : List Char := natText bucket.1 ++ '=' :: natText bucket.2

theorem chars_injective : Function.Injective chars := by
  intro bucket bucket' h
  have hequals (n : Nat) : '=' ∉ natText n := fun hmem =>
    absurd (Number.isDigit_of_mem_numeral hmem) (by decide)
  obtain ⟨hbound, -, hcount⟩ :=
    (List.append_cons_inj_of_notMem (hequals _) (hequals _)).1 h
  exact Prod.ext (Number.natText_injective hbound) (Number.natText_injective hcount)

theorem chars_ne_nil (bucket : Nat × Nat) : chars bucket ≠ [] :=
  List.append_ne_nil_of_right_ne_nil _ (List.cons_ne_nil _ _)

theorem isDigit_or_eq_of_mem_chars {bucket : Nat × Nat} {c : Char} (hc : c ∈ chars bucket) :
    c.isDigit = true ∨ c = '=' := by
  rcases List.mem_append.1 hc with hc | hc
  · exact .inl (Number.isDigit_of_mem_numeral hc)
  · rcases List.mem_cons.1 hc with rfl | hc
    · exact .inr rfl
    · exact .inl (Number.isDigit_of_mem_numeral hc)

end Bucket

namespace Distribution

theorem toList_text (d : Distribution) :
    d.text.toList = [';'].intercalate (d.buckets.map Bucket.chars) := by
  rw [text, String.toList_intercalate, List.map_map]
  congr 1
  refine List.map_congr_left fun bucket _ => ?_
  simp [Bucket.chars, natText]
  rfl

theorem not_mem_intercalate {a b : Char} (hab : a ≠ b) {pieces : List (List Char)}
    (h : ∀ piece ∈ pieces, a ∉ piece) : a ∉ [b].intercalate pieces := by
  induction pieces with
  | nil => simp
  | cons piece pieces ih =>
    obtain ⟨hpiece, hpieces⟩ := List.forall_mem_cons.1 h
    by_cases hne : pieces = []
    · rw [hne, List.intercalate_singleton]
      exact hpiece
    · rw [List.intercalate_cons_of_ne_nil hne]
      simp [hpiece, hab, ih hpieces]

/-- No blank stands in the text, as it has only digits and the two kinds of separators. -/
theorem not_mem_text (d : Distribution) {a : Char}
    (ha : ¬ (a.isDigit = true ∨ a = '=' ∨ a = ';')) : a ∉ d.text.toList := by
  simp only [not_or] at ha
  rw [toList_text]
  refine not_mem_intercalate ha.2.2 fun piece hpiece hmem => ?_
  obtain ⟨bucket, -, rfl⟩ := List.mem_map.1 hpiece
  exact (Bucket.isDigit_or_eq_of_mem_chars hmem).elim ha.1 ha.2.1

/-- A bucket is written with digits and an equals sign, so no semicolon stands in it. -/
theorem not_mem_bucket (d : Distribution) : ∀ piece ∈ d.buckets.map Bucket.chars, ';' ∉ piece := by
  intro piece hpiece hmem
  obtain ⟨bucket, -, rfl⟩ := List.mem_map.1 hpiece
  exact absurd (Bucket.isDigit_or_eq_of_mem_chars hmem) (by decide)

/-- Only the distribution without buckets has the empty text. -/
theorem toList_text_eq_nil_iff {d : Distribution} : d.text.toList = [] ↔ d.buckets = [] := by
  rw [toList_text]
  cases d.buckets with
  | nil => simp
  | cons bucket buckets =>
    obtain ⟨c, cs, hbucket⟩ := List.exists_cons_of_ne_nil (Bucket.chars_ne_nil bucket)
    rw [List.map_cons, hbucket, List.intercalate_cons_cons_left]
    simp

theorem text_injective : Function.Injective text := by
  intro d e h
  have hchars := congrArg String.toList h
  have hempty : d.buckets = [] ↔ e.buckets = [] := by
    rw [← toList_text_eq_nil_iff, hchars, toList_text_eq_nil_iff]
  by_cases hd : d.buckets = []
  · exact Distribution.ext (hd.trans (hempty.1 hd).symm)
  · have he := mt hempty.2 hd
    rw [toList_text, toList_text] at hchars
    have hpieces := congrArg (List.splitOn ';') hchars
    rw [List.splitOn_intercalate ';' (not_mem_bucket d) (by simpa using hd),
      List.splitOn_intercalate ';' (not_mem_bucket e) (by simpa using he)] at hpieces
    exact Distribution.ext (List.map_injective_iff.2 Bucket.chars_injective hpieces)

end Distribution
end SourceGauge
