import Mathlib
import SourceGauge.Number.Reader
import SourceGauge.Proofs.Number.Natural
import SourceGauge.Proofs.Number.Nearest

/-! Doubles read from text. A decimal number is digits with a point and an exponent, of a size that
the places of the digits give. What is read is the nearest double, also where the number is so small
or so large that its size is not worked out. -/
namespace SourceGauge.Number

/-- At least one digit, of the value `n` by their places. -/
def IsDigits (digits : List Char) (n : Nat) : Prop :=
  digits ≠ [] ∧ (∀ d ∈ digits, d.isDigit = true) ∧ placeValue digits = n

/-- The text is `body` behind at most one sign, which is a minus if it is negative. -/
inductive HasSign : Bool → List Char → List Char → Prop
  | minus (body : List Char) : HasSign true ('-' :: body) body
  | plus (body : List Char) : HasSign false ('+' :: body) body
  | bare (body : List Char) : HasSign false body body

/-- Digits with at most one point before, among or behind them: their value without the point, and
how many of them stand behind it. -/
inductive IsMantissa : List Char → Nat → Nat → Prop
  | whole {digits : List Char} {n : Nat} (h : IsDigits digits n) : IsMantissa digits n 0
  | pointed {whole fraction : List Char} {n : Nat} (h : IsDigits (whole ++ fraction) n) :
    IsMantissa (whole ++ '.' :: fraction) n fraction.length

/-- No exponent, which is zero, or a mark and an exponent with at most one sign. -/
inductive IsExponent : List Char → Int → Prop
  | zero : IsExponent [] 0
  | marked {mark : Char} (hmark : mark = 'e' ∨ mark = 'E') {negative : Bool}
    {cs digits : List Char} {n : Nat} (hsign : HasSign negative cs digits)
    (hdigits : IsDigits digits n) : IsExponent (mark :: cs) (if negative then -n else n)

/-- A decimal number without a sign. -/
def IsDecimal (cs : List Char) (size : ℚ) : Prop :=
  ∃ mantissa behind n places exponent, cs = mantissa ++ behind ∧ IsMantissa mantissa n places ∧
    IsExponent behind exponent ∧ size = n * 10 ^ (exponent - places : Int)

/-- The text is a decimal number, and the double is the nearest one to it. -/
def Reads (cs : List Char) (x : Float) : Prop :=
  ∃ negative body size, HasSign negative cs body ∧ IsDecimal body size ∧
    IsNearest negative size (.ofFloat x)

section Size
variable {negative : Bool} {size : ℚ}

/-- Up to half of the least positive double, the nearest one is zero. -/
theorem isNearest_zero (hsize : 0 ≤ size) (hsmall : size ≤ 2 ^ (-1075 : Int)) :
    IsNearest negative size (.ofFloat (ofQuotient negative 0 1)) := by
  have hgrid : OnGrid size 0 (-1074) := by
    have hhalf : size / 2 ^ (-1074 : Int) ≤ 1 / 2 := by
      rw [div_le_iff₀ (by positivity), one_div, ← zpow_neg_one, ← zpow_add₀ two_ne_zero]
      exact hsmall
    refine ⟨⟨?_, fun _ => .zero⟩, le_rfl, ?_, .inl rfl⟩
    · rwa [Nat.cast_zero, sub_zero, abs_of_nonneg (by positivity)]
    · rw [dyadic_pow]
      exact hsmall.trans_lt (zpow_lt_zpow_right₀ one_lt_two (by decide))
  exact hgrid.isNearest_ofQuotient (by decide) negative

theorem overflow_lt : overflow < 2 ^ 1024 := sub_lt_self _ (by positivity)

theorem isNearest_infinity (h : overflow ≤ size) :
    IsNearest negative size (.ofFloat (ofQuotient negative (2 ^ 1024) 1)) := by
  have hpower (k : Nat) :
      IsNearest negative (2 ^ k) (.ofFloat (ofQuotient negative (2 ^ k) 1)) := by
    simpa using isNearest_ofQuotient negative (2 ^ k) Nat.one_pos
  have htop := hpower 1024
  generalize Binary64.ofFloat (ofQuotient negative (2 ^ 1024) 1) = x at htop ⊢
  cases htop with
  | infinite => exact .infinite h
  | finite hlt => exact absurd hlt overflow_lt.not_gt

theorem two_pow_le_ten_pow (k : Nat) : (2 : ℚ) ^ (3 * k) ≤ 10 ^ k := by
  rw [pow_mul]
  gcongr
  norm_num

/-- A number of so many digits lies between two powers of ten. -/
theorem ten_pow_length_toDigits {n : Nat} (hn : 0 < n) :
    (10 : ℚ) ^ ((Nat.toDigits 10 n).length - 1 : Int) ≤ n ∧
      (n : ℚ) < 10 ^ ((Nat.toDigits 10 n).length : Int) := by
  have hpos : 0 < (Nat.toDigits 10 n).length := Nat.length_toDigits_pos
  generalize hlength : (Nat.toDigits 10 n).length = length at hpos
  obtain ⟨length, rfl⟩ := Nat.exists_eq_succ_of_ne_zero hpos.ne'
  have hhigh : n < 10 ^ (length + 1) :=
    (Nat.length_toDigits_le_iff (by decide) hpos).1 hlength.le
  have hlow : 10 ^ length ≤ n := by
    cases length with
    | zero => exact hn
    | succ length =>
      by_contra hlt
      have hle := (Nat.length_toDigits_le_iff (by decide) (Nat.succ_pos length)).2 (not_le.1 hlt)
      omega
  constructor
  · rw [Nat.cast_succ, add_sub_cancel_right, zpow_natCast]
    exact_mod_cast hlow
  · rw [zpow_natCast]
    exact_mod_cast hhigh

/-- Four hundred places to either side of the point are more than any double needs. -/
theorem isNearest_ofDecimal (negative : Bool) (digits : Nat) (exponent : Int) :
    IsNearest negative (digits * 10 ^ exponent)
      (.ofFloat (ofDecimal negative digits exponent)) := by
  have hpos : (0 : ℚ) < 10 ^ exponent := by positivity
  rcases Nat.eq_zero_or_pos digits with rfl | hdigits
  · rw [Nat.cast_zero, zero_mul]
    exact isNearest_zero le_rfl (by positivity)
  obtain ⟨hlow, hhigh⟩ := ten_pow_length_toDigits hdigits
  rw [ofDecimal]
  generalize hlength : (Nat.toDigits 10 digits).length = length at hlow hhigh ⊢
  have hsmall : (digits : ℚ) * 10 ^ exponent < 10 ^ (length + exponent : Int) := by
    rw [zpow_add₀ (by norm_num)]
    gcongr
  have hlarge : (10 : ℚ) ^ (length + exponent - 1 : Int) ≤ digits * 10 ^ exponent := by
    rw [add_sub_right_comm, zpow_add₀ (by norm_num)]
    gcongr
  split_ifs with hzero htop
  · have hplaces : (length + exponent : Int) < -400 := by simpa [hdigits.ne'] using hzero
    obtain ⟨k, hk⟩ := Int.eq_ofNat_of_zero_le (show 0 ≤ -(length + exponent : Int) by omega)
    refine isNearest_zero (by positivity) (hsmall.le.trans ?_)
    calc
      (10 : ℚ) ^ (length + exponent : Int) = (10 ^ k)⁻¹ := by
        rw [← neg_neg (length + exponent : Int), hk, zpow_neg, zpow_natCast]
      _ ≤ (2 ^ (3 * k))⁻¹ := inv_anti₀ (by positivity) (two_pow_le_ten_pow k)
      _ = 2 ^ (-(3 * k : Nat) : Int) := by rw [zpow_neg, zpow_natCast]
      _ ≤ 2 ^ (-1075 : Int) := zpow_le_zpow_right₀ one_le_two (by omega)
  · refine isNearest_infinity (le_trans ?_ hlarge)
    calc
      overflow ≤ 2 ^ 1024 := overflow_lt.le
      _ ≤ 2 ^ (3 * 400) := pow_le_pow_right₀ one_le_two (by decide)
      _ ≤ 10 ^ (400 : Int) := two_pow_le_ten_pow 400
      _ ≤ 10 ^ (length + exponent - 1 : Int) := zpow_le_zpow_right₀ (by norm_num) (by omega)
  · have hquotient := isNearest_ofQuotient negative (digits * 10 ^ exponent.toNat)
      (show 0 < 10 ^ (-exponent).toNat by positivity)
    rw [zpow_eq_div (by norm_num), ← mul_div_assoc]
    exact_mod_cast hquotient

end Size

section Grammar
variable {negative : Bool} {cs body digits whole rest more fraction behind : List Char}
variable {n places : Nat} {exponent : Int} {x : Float}

theorem hasSign_splitSign (cs : List Char) : HasSign (splitSign cs).1 cs (splitSign cs).2 := by
  unfold splitSign
  split
  · exact .minus _
  · exact .plus _
  · exact .bare _

/-- What begins with a sign itself could be taken for something else behind a sign. -/
theorem HasSign.splitSign_eq (h : HasSign negative cs body) (hminus : body.head? ≠ some '-')
    (hplus : body.head? ≠ some '+') : splitSign cs = (negative, body) := by
  cases h with
  | minus => rfl
  | plus => rfl
  | bare =>
    unfold splitSign
    split
    · exact absurd rfl hminus
    · exact absurd rfl hplus
    · rfl

theorem IsDigits.isDigit_of_head (h : IsDigits digits n) {d : Char} (hd : d ∈ digits.head?) :
    d.isDigit = true :=
  h.2.1 d (List.mem_of_head? hd)

theorem HasSign.splitSign_digits (h : HasSign negative cs digits) (hdigits : IsDigits digits n) :
    splitSign cs = (negative, digits) := by
  refine h.splitSign_eq (fun hminus => ?_) fun hplus => ?_
  · cases hdigits.isDigit_of_head hminus
  · cases hdigits.isDigit_of_head hplus

theorem exponent?_cons (mark : Char) (rest : List Char) :
    exponent? (mark :: rest) =
      if mark = 'e' ∨ mark = 'E' then
        (digits? (splitSign rest).2).map fun n : Nat => if (splitSign rest).1 then -(n : Int) else n
      else none := by
  simp only [exponent?, Bool.or_eq_true, decide_eq_true_eq]
  cases digits? (splitSign rest).2 <;> rfl

theorem exponent?_eq_some_iff : exponent? cs = some exponent ↔ IsExponent cs exponent := by
  constructor
  · intro h
    cases cs with
    | nil =>
      obtain rfl : 0 = exponent := Option.some.inj h
      exact .zero
    | cons mark rest =>
      rw [exponent?_cons] at h
      split at h
      case isTrue hmark =>
        obtain ⟨n, hn, rfl⟩ := Option.map_eq_some_iff.1 h
        exact .marked hmark (hasSign_splitSign rest) (digits?_eq_some_iff.1 hn)
      case isFalse => cases h
  · intro h
    cases h with
    | zero => rfl
    | marked hmark hsign hdigits =>
      rw [exponent?_cons, if_pos hmark, hsign.splitSign_digits hdigits]
      exact Option.map_eq_some_iff.2 ⟨_, digits?_eq_some_iff.2 hdigits, rfl⟩

/-- Digits, and a rest that does not begin with one. -/
structure Cut (cs digits rest : List Char) : Prop where
  eq_append : cs = digits ++ rest
  isDigit : ∀ d ∈ digits, d.isDigit = true
  stops : ∀ d ∈ rest.head?, d.isDigit = false

theorem cut_takeWhile (cs : List Char) :
    Cut cs (cs.takeWhile Char.isDigit) (cs.dropWhile Char.isDigit) where
  eq_append := List.takeWhile_append_dropWhile.symm
  isDigit _ hd := List.mem_takeWhile_imp hd
  stops d hd := by
    have hhead := List.head?_dropWhile_not Char.isDigit cs
    rw [Option.mem_def.1 hd] at hhead
    simpa using hhead

theorem Cut.takeWhile_eq (h : Cut cs digits rest) :
    cs.takeWhile Char.isDigit = digits ∧ cs.dropWhile Char.isDigit = rest := by
  obtain ⟨rfl, hdigits, hstops⟩ := h
  rw [List.takeWhile_append_of_pos hdigits, List.dropWhile_append_of_pos hdigits]
  cases rest with
  | nil => exact ⟨List.append_nil digits, rfl⟩
  | cons d rest =>
    have hd : d.isDigit = false := hstops d rfl
    simp [hd]

theorem Cut.decimal?_pointed (h : Cut cs whole ('.' :: more)) (h' : Cut more fraction behind) :
    decimal? negative cs =
      if whole ++ fraction = [] then none
      else (exponent? behind).map fun e =>
        ofDecimal negative (ofDigits (whole ++ fraction)) (e - fraction.length) := by
  simp [decimal?, h.takeWhile_eq, h'.takeWhile_eq]

theorem Cut.decimal?_whole (h : Cut cs whole rest) (hrest : rest.head? ≠ some '.') :
    decimal? negative cs =
      if whole = [] then none
      else (exponent? rest).map fun e => ofDecimal negative (ofDigits whole) (e - (0 : Nat)) := by
  cases rest with
  | nil => simp [decimal?, h.takeWhile_eq]
  | cons d rest =>
    have hd : d ≠ '.' := by simpa using hrest
    simp [decimal?, h.takeWhile_eq, hd]

theorem IsExponent.stops (h : IsExponent behind exponent) {d : Char} (hd : d ∈ behind.head?) :
    d.isDigit = false ∧ d ≠ '.' := by
  cases h with
  | zero => cases hd
  | marked hmark =>
    obtain rfl := Option.some.inj hd
    rcases hmark with rfl | rfl <;> decide

/-- A decimal number is read from its text, whatever double is made of it. -/
theorem decimal?_eq_some_iff : decimal? negative cs = some x ↔
    ∃ mantissa behind n places exponent, cs = mantissa ++ behind ∧ IsMantissa mantissa n places ∧
      IsExponent behind exponent ∧ x = ofDecimal negative n (exponent - places) := by
  constructor
  · intro h
    have hcut := cut_takeWhile cs
    generalize cs.takeWhile Char.isDigit = whole at hcut
    generalize cs.dropWhile Char.isDigit = rest at hcut
    by_cases hpoint : rest.head? = some '.'
    · obtain ⟨more, rfl⟩ := List.head?_eq_some_iff.1 hpoint
      have hmore := cut_takeWhile more
      generalize more.takeWhile Char.isDigit = fraction at hmore
      generalize more.dropWhile Char.isDigit = behind at hmore
      rw [hcut.decimal?_pointed hmore] at h
      split at h
      case isTrue => cases h
      case isFalse hne =>
        obtain ⟨e, he, rfl⟩ := Option.map_eq_some_iff.1 h
        refine ⟨whole ++ '.' :: fraction, behind, _, _, e, ?_,
          .pointed ⟨hne, ?_, (ofDigits_eq_placeValue _).symm⟩, exponent?_eq_some_iff.1 he, rfl⟩
        · rw [hcut.eq_append, hmore.eq_append, List.append_assoc, List.cons_append]
        · exact List.forall_mem_append.2 ⟨hcut.isDigit, hmore.isDigit⟩
    · rw [hcut.decimal?_whole hpoint] at h
      split at h
      case isTrue => cases h
      case isFalse hne =>
        obtain ⟨e, he, rfl⟩ := Option.map_eq_some_iff.1 h
        exact ⟨whole, rest, _, 0, e, hcut.eq_append,
          .whole ⟨hne, hcut.isDigit, (ofDigits_eq_placeValue _).symm⟩,
          exponent?_eq_some_iff.1 he, rfl⟩
  · rintro ⟨mantissa, behind, n, places, e, rfl, hmantissa, hexponent, rfl⟩
    have hbehind : ∀ d ∈ behind.head?, d.isDigit = false := fun d hd => (hexponent.stops hd).1
    cases hmantissa with
    | whole h =>
      obtain ⟨hne, hdigits, rfl⟩ := h
      have hcut : Cut (mantissa ++ behind) mantissa behind := ⟨rfl, hdigits, hbehind⟩
      rw [hcut.decimal?_whole fun hpoint => (hexponent.stops hpoint).2 rfl, if_neg hne,
        exponent?_eq_some_iff.2 hexponent, ofDigits_eq_placeValue]
      rfl
    | @pointed whole fraction _ h =>
      obtain ⟨hne, hdigits, rfl⟩ := h
      obtain ⟨hwhole, hfraction⟩ := List.forall_mem_append.1 hdigits
      have hcut : Cut (whole ++ '.' :: fraction ++ behind) whole ('.' :: (fraction ++ behind)) :=
        ⟨by rw [List.append_assoc, List.cons_append], hwhole, by simp⟩
      have hmore : Cut (fraction ++ behind) fraction behind := ⟨rfl, hfraction, hbehind⟩
      rw [hcut.decimal?_pointed hmore, if_neg hne, exponent?_eq_some_iff.2 hexponent,
        ofDigits_eq_placeValue]
      rfl

/-- The double that is read is the nearest one. -/
theorem decimal?_eq_some_iff_isNearest : decimal? negative cs = some x ↔
    ∃ size, IsDecimal cs size ∧ IsNearest negative size (.ofFloat x) := by
  rw [decimal?_eq_some_iff]
  constructor
  · rintro ⟨mantissa, behind, n, places, exponent, hcs, hmantissa, hexponent, rfl⟩
    exact ⟨_, ⟨mantissa, behind, n, places, exponent, hcs, hmantissa, hexponent, rfl⟩,
      isNearest_ofDecimal negative n _⟩
  · rintro ⟨_, ⟨mantissa, behind, n, places, exponent, hcs, hmantissa, hexponent, rfl⟩, hnearest⟩
    exact ⟨mantissa, behind, n, places, exponent, hcs, hmantissa, hexponent,
      hnearest.unique (isNearest_ofDecimal negative n _)⟩

/-- A decimal number begins with a digit or with a point. -/
theorem IsDecimal.exists_cons {size : ℚ} (h : IsDecimal cs size) :
    ∃ d rest, cs = d :: rest ∧ (d.isDigit = true ∨ d = '.') := by
  obtain ⟨mantissa, behind, n, places, exponent, rfl, hmantissa, -, -⟩ := h
  cases hmantissa with
  | whole h =>
    obtain ⟨d, rest, rfl⟩ := List.exists_cons_of_ne_nil h.1
    exact ⟨d, rest ++ behind, rfl, .inl (h.isDigit_of_head rfl)⟩
  | @pointed whole fraction _ h =>
    cases whole with
    | nil => exact ⟨'.', fraction ++ behind, rfl, .inr rfl⟩
    | cons d whole =>
      exact ⟨d, whole ++ '.' :: fraction ++ behind, rfl, .inl (h.isDigit_of_head rfl)⟩

theorem toLower_eq_self {d : Char} (hd : d.isDigit = true ∨ d = '.') : d.toLower = d := by
  rw [Char.toLower, dif_neg]
  rintro ⟨hlow, -⟩
  rcases hd with hd | rfl
  · simp only [Char.isDigit, Bool.and_eq_true, decide_eq_true_eq, ge_iff_le,
      UInt32.le_iff_toNat_le] at hd hlow
    exact absurd (hlow.trans hd.2) (by decide)
  · exact absurd hlow (by decide)

/-- No decimal number is read as the name of a special value. -/
theorem IsDecimal.word_ne {size : ℚ} (h : IsDecimal cs size) (word : String)
    (hword : ∀ d ∈ word.toList.head?, d.isDigit = false ∧ d ≠ '.') :
    String.ofList (cs.map Char.toLower) ≠ word := by
  rintro rfl
  obtain ⟨d, rest, rfl, hd⟩ := h.exists_cons
  rw [List.map_cons, String.toList_ofList, toLower_eq_self hd] at hword
  obtain ⟨hdigit, hpoint⟩ := hword d rfl
  rcases hd with hd | rfl
  · rw [hd] at hdigit
    cases hdigit
  · exact hpoint rfl

/-- A double that is finite is read from the decimal numbers that it is nearest to. -/
theorem float?_eq_some_iff {sign : Bool} {mantissa : Nat}
    (hx : Binary64.ofFloat x = .finite sign mantissa exponent) :
    float? cs = some x ↔ Reads cs x := by
  rw [float?]
  constructor
  · intro h
    have hsign := hasSign_splitSign cs
    generalize splitSign cs = split at h hsign
    obtain ⟨negative, body⟩ := split
    dsimp only at h hsign
    -- The special values are not finite.
    have hinfinity : Binary64.ofFloat (1.0 / 0.0) = .infinite false := by decide +kernel
    have hminus : Binary64.ofFloat (-(1.0 / 0.0)) = .infinite true := by decide +kernel
    have hnan : Binary64.ofFloat (0.0 / 0.0) = .nan := by decide +kernel
    split_ifs at h
    · obtain rfl := Option.some.inj h
      cases hminus.symm.trans hx
    · obtain rfl := Option.some.inj h
      cases hinfinity.symm.trans hx
    · obtain rfl := Option.some.inj h
      cases hnan.symm.trans hx
    · obtain ⟨size, hdecimal, hnearest⟩ := decimal?_eq_some_iff_isNearest.1 h
      exact ⟨negative, body, size, hsign, hdecimal, hnearest⟩
  · rintro ⟨negative, body, size, hsign, hdecimal, hnearest⟩
    have hsplit : splitSign cs = (negative, body) := by
      obtain ⟨d, rest, rfl, hd⟩ := hdecimal.exists_cons
      refine hsign.splitSign_eq ?_ ?_ <;>
      · rw [List.head?_cons, ne_eq, Option.some.injEq]
        rintro rfl
        revert hd
        decide
    have hinf := hdecimal.word_ne "inf" (by simp)
    have hinfinity := hdecimal.word_ne "infinity" (by simp)
    rw [hsplit]
    dsimp only
    rw [if_neg (by simp only [hinf, hinfinity, decide_false, Bool.or_self, not_false_eq_true,
      Bool.false_eq_true]), if_neg (hdecimal.word_ne "nan" (by simp))]
    exact decimal?_eq_some_iff_isNearest.2 ⟨size, hdecimal, hnearest⟩

end Grammar

end SourceGauge.Number
