import Mathlib
import SourceGauge.Number.Form
import SourceGauge.Proofs.Number.Natural

/-! Written numbers. Different naturals are written differently, and the text of a double has only
digits, points, hyphens and the letters of the values that are not finite. -/
namespace SourceGauge.Number

theorem natText_injective : Function.Injective natText := by
  intro m n h
  have hm : Denotes (natText m) m := denotes_natText 0 m
  have hn : Denotes (natText n) n := denotes_natText 0 n
  rw [h] at hm
  exact hm.unique hn

theorem isDigit_of_mem_numeral {n : Nat} {c : Char} (hc : c ∈ natText n) :
    c.isDigit = true :=
  isDigit_of_mem_natText 0 n c hc

/-- A digit, a point, a hyphen, or a letter of the values that are not finite. -/
def IsMark (c : Char) : Prop := c.isDigit = true ∨ c ∈ ['.', '-', 'N', 'a', 'i', 'n', 'f']

instance (c : Char) : Decidable (IsMark c) := inferInstanceAs (Decidable (_ ∨ _))

theorem isMark_of_mem_positional (d : Decimal) : ∀ c ∈ d.positional, IsMark c := by
  have hdigits (k : Nat) : ∀ c ∈ List.replicate k '0' ++ natText d.digits, IsMark c :=
    fun c hc => .inl (isDigit_of_mem_natText k _ c hc)
  intro c hc
  rw [Decimal.positional] at hc
  dsimp only at hc
  split at hc
  · rcases List.mem_append.1 hc with hc | hc
    · exact hdigits 0 c hc
    · rw [List.eq_of_mem_replicate hc]
      decide
  · rcases List.mem_append.1 hc with hc | hc
    · exact hdigits _ c (List.mem_of_mem_take hc)
    · rcases List.mem_cons.1 hc with rfl | hc
      · decide
      · exact hdigits _ c (List.mem_of_mem_drop hc)

theorem isMark_of_mem_signed {negative : Bool} {cs : List Char} (h : ∀ c ∈ cs, IsMark c) :
    ∀ c ∈ signed negative cs, IsMark c := by
  cases negative with
  | false => exact h
  | true => exact List.forall_mem_cons.2 ⟨by decide, h⟩

theorem isMark_of_mem_plainText (x : Float) : ∀ c ∈ plainText x, IsMark c := by
  rw [plainText]
  cases Binary64.ofFloat x with
  | nan =>
    change ∀ c ∈ "NaN".toList, IsMark c
    simp [IsMark]
  | infinite negative => exact isMark_of_mem_signed (by simp [IsMark])
  | finite negative mantissa exponent =>
    refine isMark_of_mem_signed ?_
    split
    · exact fun c hc => .inl (isDigit_of_mem_numeral hc)
    · exact isMark_of_mem_positional _

end SourceGauge.Number
