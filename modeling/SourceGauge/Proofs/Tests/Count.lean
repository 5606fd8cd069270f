import Mathlib
import SourceGauge.Proofs.Number.Natural
import SourceGauge.Proofs.Text.Trim
import SourceGauge.Tests.Suite

/-! Counts as they are written in the attributes of a report: decimal numerals with blank characters
around them and commas anywhere within. -/
namespace SourceGauge

/-- The value is a numeral of `n`, once the blank characters around it and all commas are gone. -/
def Writes (value : String) (n : Nat) : Prop :=
  ∃ before body after, value.toList = before ++ (body ++ after) ∧
    Text.Encloses Text.isBlank before body after ∧ Number.Denotes (body.filter (· ≠ ',')) n

/-- What holds of the value once the blank characters around it and all commas are gone. -/
theorem exists_body_iff {value : String} (P : List Char → Prop) :
    (∃ before body after, value.toList = before ++ (body ++ after) ∧
      Text.Encloses Text.isBlank before body after ∧ P (body.filter (· ≠ ','))) ↔
      P (bareNumber value) := by
  constructor
  · rintro ⟨before, body, after, hvalue, hbody, h⟩
    obtain rfl := Text.stripEnds_eq_iff.2 ⟨before, after, hvalue, hbody⟩
    exact h
  · intro h
    have htrim : Text.stripEnds Text.isBlank value.toList = Text.trim value.toList := rfl
    obtain ⟨before, after, hvalue, hbody⟩ := Text.stripEnds_eq_iff.1 htrim
    exact ⟨before, _, after, hvalue, hbody, h⟩

theorem writes_iff {value : String} {n : Nat} :
    Writes value n ↔ Number.Denotes (bareNumber value) n :=
  exists_body_iff (Number.Denotes · n)

theorem count?_eq_some_iff {value : String} {n : Nat} :
    count? value = some n ↔ Writes value n ∧ n < 2 ^ 64 := by
  rw [count?, Number.natBelow?_eq_some_iff, writes_iff]

theorem count?_eq_none_iff {value : String} :
    count? value = none ↔ ∀ n, Writes value n → 2 ^ 64 ≤ n := by
  rw [Option.eq_none_iff_forall_ne_some]
  refine forall_congr' fun n => ?_
  rw [ne_eq, count?_eq_some_iff, not_and, Nat.not_lt]

/-- A numeral without commas stands for itself: no digit is blank. -/
theorem bareNumber_of_digits {digits : List Char} (h : ∀ d ∈ digits, d.isDigit = true) :
    bareNumber (String.ofList digits) = digits := by
  have hsolid : ∀ d ∈ digits, Text.isBlank d = false ∧ d ≠ ',' := by
    intro d hd
    have hrange := h d hd
    simp only [Char.isDigit, Bool.and_eq_true, decide_eq_true_eq, ge_iff_le, UInt32.le_iff_toNat_le]
      at hrange
    change 48 ≤ d.toNat ∧ d.toNat ≤ 57 at hrange
    constructor
    · simp only [Text.isBlank, Bool.or_eq_false_iff, Bool.and_eq_false_iff, decide_eq_false_iff_not]
      omega
    · rintro rfl
      exact absurd hrange.1 (by decide)
  have hbody : Text.Encloses Text.isBlank [] digits [] :=
    ⟨List.forall_mem_nil _, List.forall_mem_nil _, fun d hd => (hsolid d (List.mem_of_head? hd)).1,
      fun d hd => (hsolid d (List.mem_of_getLast? hd)).1⟩
  have htrim : Text.trim digits = digits := by
    have hstrip := hbody.stripEnds_eq
    rwa [List.nil_append, List.append_nil] at hstrip
  rw [bareNumber, String.toList_ofList, htrim, List.filter_eq_self]
  exact fun d hd => by simpa using (hsolid d hd).2

/-- The value of an attribute is taken as a count exactly if it is a numeral of a number below
`2 ^ 64`, apart from blank characters around it and commas, and is that number then. Every other
value is refused as it is written. Digits that are compared with the bound one by one give the same,
and the digits of each number, behind any number of zeros, give it back while it is below the
bound. -/
theorem numberOr_count (attr value : String) (missing : Nat) :
    (∀ n, numberOr count? attr (some value) missing = .ok n ↔ Writes value n ∧ n < 2 ^ 64) ∧
    (∀ bad, numberOr count? attr (some value) missing = .error bad ↔
      (∀ n, Writes value n → 2 ^ 64 ≤ n) ∧ bad = ⟨attr, value⟩) ∧
    count? value = Number.checkedNat? (2 ^ 64) (bareNumber value) ∧
    ∀ k n, count? (String.ofList (List.replicate k '0' ++ Number.natText n)) =
      if n < 2 ^ 64 then some n else none := by
  refine ⟨fun n => ?_, fun bad => ?_, ?_, fun k n => ?_⟩
  · rw [← count?_eq_some_iff, numberOr]
    cases count? value <;> simp
  · rw [← count?_eq_none_iff, numberOr]
    cases count? value <;> simp [eq_comm]
  · exact Number.natBelow?_eq_checkedNat? (by decide) (bareNumber value)
  · have hbare := bareNumber_of_digits (Number.isDigit_of_mem_natText k n)
    have hdenotes := Number.denotes_natText k n
    split
    case isTrue hn => exact count?_eq_some_iff.2 ⟨writes_iff.2 (by rwa [hbare]), hn⟩
    case isFalse hn =>
      refine count?_eq_none_iff.2 fun m hm => ?_
      rw [writes_iff, hbare] at hm
      obtain rfl := hm.unique hdenotes
      exact Nat.not_lt.1 hn

example : count? "\u2003+0,1,8446744073709551615\t" = some (2 ^ 64 - 1) := by cbv
example : count? "18,446,744,073,709,551,616" = none := by cbv
example : count? "1 000" = none := by cbv

end SourceGauge
