import Mathlib
import SourceGauge.Number.Form
import SourceGauge.Number.Reader

/-! Natural numbers below a bound, read from digits. A numeral denotes the sum of its digits by
their places, so zeros at its front do not count. Whether the value is compared with the bound in
the end or on the way, digit by digit, makes no difference. -/
namespace SourceGauge.Number

/-- The value of digits by their places, of which the last is that of the ones. -/
def placeValue (digits : List Char) : Nat := Nat.ofDigits 10 (digits.reverse.map digitValue)

/-- The text is a decimal numeral of `n`: at least one digit, and before them a plus sign or
nothing. -/
def Denotes (cs : List Char) (n : Nat) : Prop :=
  ∃ digits, (cs = digits ∨ cs = '+' :: digits) ∧ digits ≠ [] ∧ (∀ d ∈ digits, d.isDigit = true) ∧
    placeValue digits = n

/-- Reads digits from the front while their value stays below the bound. It is given up at a
character that is no digit, and where the value would reach the bound, when it is multiplied or when
the digit is added. -/
def readBelow? (bound value : Nat) : List Char → Option Nat
  | [] => some value
  | c :: rest =>
    if !c.isDigit then none
    else if bound ≤ 10 * value then none
    else if bound ≤ 10 * value + digitValue c then none
    else readBelow? bound (10 * value + digitValue c) rest

/-- Reads a number as `natBelow?` does, but never holds a value that reaches the bound. -/
def checkedNat? (bound : Nat) (cs : List Char) : Option Nat :=
  let digits := if cs.head? = some '+' then cs.tail else cs
  if digits.isEmpty then none else readBelow? bound 0 digits

section Value
variable {cs digits : List Char} {bound value n : Nat}

theorem ofDigits_eq_placeValue (digits : List Char) : ofDigits digits = placeValue digits := by
  induction digits using List.reverseRecOn with
  | nil => rfl
  | append_singleton digits d ih =>
    have hplaces : placeValue (digits ++ [d]) = digitValue d + 10 * placeValue digits := by
      simp [placeValue, Nat.ofDigits_cons]
    rw [hplaces, ← ih, ofDigits, List.foldl_concat, Nat.add_comm]
    rfl

/-- Zeros before a numeral leave its value as it is. -/
theorem placeValue_zeros (k : Nat) (digits : List Char) :
    placeValue (List.replicate k '0' ++ digits) = placeValue digits := by
  have hzeros : (List.replicate k '0').reverse.map digitValue = List.replicate k 0 := by
    rw [List.reverse_replicate, List.map_replicate]
    rfl
  rw [placeValue, List.reverse_append, List.map_append, hzeros,
    Nat.ofDigits_append_replicate_zero, placeValue]

theorem digits?_eq_some_iff : digits? cs = some n ↔
    cs ≠ [] ∧ (∀ d ∈ cs, d.isDigit = true) ∧ placeValue cs = n := by
  rw [digits?, ofDigits_eq_placeValue]
  by_cases hcs : !cs.isEmpty && cs.all Char.isDigit
  · rw [if_pos hcs]
    simp_all
  · rw [if_neg hcs]
    refine iff_of_false (by simp) fun h => hcs ?_
    simpa using ⟨h.1, h.2.1⟩

theorem isDigit_of_mem_natText (k n : Nat) :
    ∀ d ∈ List.replicate k '0' ++ natText n, d.isDigit = true := by
  intro d hd
  rcases List.mem_append.1 hd with hd | hd
  · obtain rfl := List.eq_of_mem_replicate hd
    rfl
  · exact Nat.isDigit_of_mem_toDigits (by decide) (by decide) hd

/-- The digits of a number are a numeral of it, also behind zeros. -/
theorem denotes_natText (k n : Nat) : Denotes (List.replicate k '0' ++ natText n) n := by
  have hne : List.replicate k '0' ++ natText n ≠ [] :=
    List.append_ne_nil_of_right_ne_nil _ Nat.toDigits_ne_nil
  refine ⟨_, .inl rfl, hne, isDigit_of_mem_natText k n, ?_⟩
  rw [placeValue_zeros, ← ofDigits_eq_placeValue, natText]
  calc
    ofDigits (Nat.toDigits 10 n) = Nat.ofDigitChars 10 (Nat.toDigits 10 n) 0 :=
      Nat.ofDigitChars_eq_foldl.symm
    _ = n := Nat.ofDigitChars_ten_toDigits

/-- The digits behind the sign, if there is one. -/
theorem denotes_iff : Denotes cs n ↔
    digits? (if cs.head? = some '+' then cs.tail else cs) = some n := by
  rw [digits?_eq_some_iff]
  constructor
  · rintro ⟨digits, rfl | rfl, hne, hdigits, hvalue⟩
    · have hplus : cs.head? ≠ some '+' := by
        intro hplus
        have hdigit := hdigits '+' (List.mem_of_head? hplus)
        cases hdigit
      rw [if_neg hplus]
      exact ⟨hne, hdigits, hvalue⟩
    · exact ⟨hne, hdigits, hvalue⟩
  · rintro ⟨hne, hdigits, hvalue⟩
    refine ⟨_, ?_, hne, hdigits, hvalue⟩
    split
    case isTrue hplus =>
      obtain ⟨rest, rfl⟩ := List.head?_eq_some_iff.1 hplus
      exact .inr rfl
    case isFalse => exact .inl rfl

theorem Denotes.unique {m : Nat} (hm : Denotes cs m) (hn : Denotes cs n) : m = n := by
  rw [denotes_iff] at hm hn
  exact Option.some.inj (hm.symm.trans hn)

/-- A number is read from its numerals, if it is below the bound. -/
theorem natBelow?_eq_some_iff : natBelow? bound cs = some n ↔ Denotes cs n ∧ n < bound := by
  rw [natBelow?, Option.filter_eq_some_iff, denotes_iff, decide_eq_true_eq]

theorem le_foldl_digits (digits : List Char) (value : Nat) :
    value ≤ digits.foldl (fun n c => 10 * n + digitValue c) value := by
  induction digits generalizing value with
  | nil => exact Nat.le_refl value
  | cons d digits ih =>
    have hrest := ih (10 * value + digitValue d)
    rw [List.foldl_cons]
    omega

/-- The value only grows, so it stays below the bound on the way when it does in the end. -/
theorem readBelow?_eq_some_iff (hvalue : value < bound) : readBelow? bound value digits = some n ↔
    (∀ d ∈ digits, d.isDigit = true) ∧
      digits.foldl (fun n c => 10 * n + digitValue c) value = n ∧ n < bound := by
  induction digits generalizing value with
  | nil =>
    rw [readBelow?, Option.some.injEq, List.foldl_nil]
    constructor
    · rintro rfl
      exact ⟨List.forall_mem_nil _, rfl, hvalue⟩
    · exact fun h => h.2.1
  | cons d digits ih =>
    have hgrows := le_foldl_digits digits (10 * value + digitValue d)
    rw [readBelow?, List.foldl_cons, List.forall_mem_cons]
    by_cases hd : d.isDigit = true
    · rw [if_neg (by simp [hd])]
      split
      case isTrue hmul =>
        refine iff_of_false (by simp) fun h => ?_
        omega
      split
      case isTrue hadd =>
        refine iff_of_false (by simp) fun h => ?_
        omega
      case isFalse hadd =>
        rw [ih (by omega)]
        simp [hd]
    · rw [if_pos (by simpa using hd)]
      exact iff_of_false (by simp) fun h => hd h.1.1

/-- Giving up on the way refuses exactly the numerals whose value reaches the bound, however many
digits they have. -/
theorem natBelow?_eq_checkedNat? (hbound : 0 < bound) (cs : List Char) :
    natBelow? bound cs = checkedNat? bound cs := by
  ext n
  rw [natBelow?_eq_some_iff, denotes_iff, digits?_eq_some_iff, checkedNat?]
  generalize (if cs.head? = some '+' then cs.tail else cs) = digits
  cases digits with
  | nil => simp
  | cons d digits =>
    rw [← ofDigits_eq_placeValue]
    change _ ↔ readBelow? bound 0 (d :: digits) = some n
    rw [readBelow?_eq_some_iff hbound, ofDigits]
    constructor
    · rintro ⟨⟨-, hdigits, hvalue⟩, hn⟩
      exact ⟨hdigits, hvalue, hn⟩
    · rintro ⟨hdigits, hvalue, hn⟩
      exact ⟨⟨by simp, hdigits, hvalue⟩, hn⟩

end Value
end SourceGauge.Number
