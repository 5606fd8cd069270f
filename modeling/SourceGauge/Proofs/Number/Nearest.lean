import Mathlib
import SourceGauge.Proofs.Number.Binary64

/-! Rounding to doubles. Of all doubles with a sign, the one that a quotient is rounded to is the
nearest, and has the even mantissa if another one is as near. From halfway behind the greatest
double on, that is infinity. So the double of a natural number is told by the number. -/
namespace SourceGauge.Number

/-- Halfway between the greatest double and the power of two behind it. -/
def overflow : ℚ := 2 ^ 1024 - 2 ^ 970

/-- A natural number that no other one is nearer to `x` than, the even one of two. -/
structure RoundsTo (x : ℚ) (n : Nat) : Prop where
  near : |x - n| ≤ 1 / 2
  even : |x - n| = 1 / 2 → Even n

/-- Of the doubles with a sign, the nearest one to a number of which the size is given. -/
inductive IsNearest (negative : Bool) (size : ℚ) : Binary64 → Prop
  | finite {mantissa : Nat} {exponent : Int} (hsize : size < overflow)
      (hnear : ∀ s, IsSize s → |size - dyadic mantissa exponent| ≤ |size - s|)
      (heven : ∀ s, IsSize s → |size - s| = |size - dyadic mantissa exponent| →
        s = dyadic mantissa exponent ∨ Even mantissa) :
      IsNearest negative size (.finite negative mantissa exponent)
  | infinite (hsize : overflow ≤ size) : IsNearest negative size (.infinite negative)

section Rounding
variable {x : ℚ} {m n num den : Nat}

theorem RoundsTo.not_lt (hm : RoundsTo x m) (hn : RoundsTo x n) : ¬ m < n := by
  intro hlt
  have hmnear := abs_le.1 hm.near
  have hnnear := abs_le.1 hn.near
  have hle : (m : ℚ) + 1 ≤ n := by exact_mod_cast hlt
  have hnext : m + 1 = n := by
    have heq : (m : ℚ) + 1 = n := by linarith
    exact_mod_cast heq
  have hmeven : Even m := hm.even (by rw [abs_of_nonneg] <;> linarith)
  have hneven : Even n := hn.even (by rw [abs_of_nonpos] <;> linarith)
  rw [← hnext, Nat.even_add_one] at hneven
  exact hneven hmeven

theorem RoundsTo.unique (hm : RoundsTo x m) (hn : RoundsTo x n) : m = n :=
  Nat.le_antisymm (Nat.le_of_not_lt (hn.not_lt hm)) (Nat.le_of_not_lt (hm.not_lt hn))

theorem roundsTo_divRound (num : Nat) (hden : 0 < den) :
    RoundsTo ((num : ℚ) / den) (divRound num den) := by
  have hpos : (0 : ℚ) < den := Nat.cast_pos.2 hden
  have hsplit : (num : ℚ) = den * (num / den : Nat) + (num % den : Nat) := by
    exact_mod_cast (Nat.div_add_mod num den).symm
  have hdist (k : Nat) :
      (num : ℚ) / den - ((num / den : Nat) + k) = (num % den : Nat) / den - k := by
    rw [hsplit, add_div, mul_div_cancel_left₀ _ hpos.ne']
    ring
  have hlt : num % den < den := Nat.mod_lt num hden
  rw [divRound]
  have hzero : (num : ℚ) / den - (num / den : Nat) = (num % den : Nat) / den := by
    simpa using hdist 0
  have hone : (num : ℚ) / den - (num / den + 1 : Nat) = (num % den : Nat) / den - 1 := by
    simpa using hdist 1
  have hnonneg : (0 : ℚ) ≤ (num % den : Nat) / den := by positivity
  split
  case isTrue hlow =>
    have hhalf : ((num % den : Nat) : ℚ) / den < 1 / 2 := by
      rw [div_lt_div_iff₀ hpos two_pos]
      exact_mod_cast (by omega)
    constructor <;> rw [hzero, abs_of_nonneg hnonneg]
    · exact hhalf.le
    · exact fun heq => absurd heq hhalf.ne
  split
  case isTrue hhigh =>
    have hhalf : (1 : ℚ) / 2 < (num % den : Nat) / den := by
      rw [div_lt_div_iff₀ two_pos hpos]
      exact_mod_cast (by omega)
    have hle : ((num % den : Nat) : ℚ) / den ≤ 1 := by
      rw [div_le_one hpos]
      exact_mod_cast hlt.le
    constructor <;> rw [hone, abs_of_nonpos (by linarith)]
    · linarith
    · intro heq
      linarith
  case isFalse hhigh =>
    have hhalf : ((num % den : Nat) : ℚ) / den = 1 / 2 := by
      rw [div_eq_div_iff hpos.ne' two_ne_zero]
      exact_mod_cast (by omega)
    rcases Nat.mod_two_eq_zero_or_one (num / den) with heven | hodd
    · rw [heven, Nat.add_zero]
      exact ⟨by rw [hzero, hhalf]; norm_num, fun _ => Nat.even_iff.2 heven⟩
    · rw [hodd]
      exact ⟨by rw [hone, hhalf]; norm_num, fun _ => Nat.even_iff.2 (by omega)⟩

/-- No natural number is nearer to `x`, and as near is only one if the nearest is even. -/
theorem RoundsTo.nearest (h : RoundsTo x m) (k : Nat) :
    |x - m| ≤ |x - k| ∧ (|x - k| = |x - m| → k = m ∨ Even m) := by
  by_cases hk : k = m
  · subst hk
    exact ⟨le_rfl, fun _ => .inl rfl⟩
  have hone : (1 : ℚ) ≤ |(m : ℚ) - k| := by
    have hint : (1 : Int) ≤ |(m : Int) - k| := Int.one_le_abs (by omega)
    exact_mod_cast hint
  have htriangle : |(m : ℚ) - k| ≤ |x - m| + |x - k| := by
    have hsum := abs_sub_le (m : ℚ) x k
    rwa [abs_sub_comm (m : ℚ) x] at hsum
  have hnear := h.near
  exact ⟨by linarith, fun heq => .inr (h.even (by linarith))⟩

/-- Scaling both sides by whole powers of two compares a quotient with a power of two. -/
theorem scaled_le_iff (num : Nat) (hden : 0 < den) (e : Int) :
    den * 2 ^ e.toNat ≤ num * 2 ^ (-e).toNat ↔ (2 : ℚ) ^ e ≤ num / den := by
  have hpos : (0 : ℚ) < den := Nat.cast_pos.2 hden
  rw [zpow_eq_div two_ne_zero, div_le_div_iff₀ (by positivity) hpos, mul_comm _ (den : ℚ)]
  exact_mod_cast Iff.rfl

/-- The logarithm is that of the greatest power of two which is not above the quotient. -/
theorem two_zpow_quotientLog (hnum : 0 < num) (hden : 0 < den) :
    (2 : ℚ) ^ quotientLog 2 Nat.log2 num den ≤ num / den ∧
      (num / den : ℚ) < 2 ^ (quotientLog 2 Nat.log2 num den + 1) := by
  have hpos : (0 : ℚ) < den := Nat.cast_pos.2 hden
  have hnumlow : (2 : ℚ) ^ (num.log2 : Int) ≤ num := by
    rw [zpow_natCast]
    exact_mod_cast Nat.log2_self_le hnum.ne'
  have hnumhigh : (num : ℚ) < 2 ^ ((num.log2 : Int) + 1) := by
    rw [← Nat.cast_succ, zpow_natCast]
    exact_mod_cast Nat.lt_log2_self
  have hdenlow : (2 : ℚ) ^ (den.log2 : Int) ≤ den := by
    rw [zpow_natCast]
    exact_mod_cast Nat.log2_self_le hden.ne'
  have hdenhigh : (den : ℚ) < 2 ^ ((den.log2 : Int) + 1) := by
    rw [← Nat.cast_succ, zpow_natCast]
    exact_mod_cast Nat.lt_log2_self
  rw [quotientLog]
  generalize hdiff : (num.log2 : Int) - den.log2 = e
  have hlow : (2 : ℚ) ^ (e - 1) ≤ num / den := by
    rw [le_div_iff₀ hpos]
    calc
      (2 : ℚ) ^ (e - 1) * den ≤ 2 ^ (e - 1) * 2 ^ ((den.log2 : Int) + 1) := by gcongr
      _ = 2 ^ (num.log2 : Int) := by rw [← zpow_add₀ two_ne_zero]; congr 1; omega
      _ ≤ num := hnumlow
  have hhigh : (num / den : ℚ) < 2 ^ (e + 1) := by
    rw [div_lt_iff₀ hpos]
    calc
      (num : ℚ) < 2 ^ ((num.log2 : Int) + 1) := hnumhigh
      _ = 2 ^ (e + 1) * 2 ^ (den.log2 : Int) := by rw [← zpow_add₀ two_ne_zero]; congr 1; omega
      _ ≤ 2 ^ (e + 1) * den := by gcongr
  split
  case isTrue hle => exact ⟨(scaled_le_iff num hden e).1 hle, hhigh⟩
  case isFalse hnot =>
    refine ⟨hlow, ?_⟩
    rw [sub_add_cancel]
    exact not_le.1 (mt (scaled_le_iff num hden e).2 hnot)

end Rounding

section Grid
variable {size s x : ℚ} {mantissa m : Nat} {exponent : Int} {negative : Bool}

theorem overflow_eq : overflow = dyadic (2 ^ 54 - 1) 970 := by
  have hlast : (2 : ℚ) ^ (970 : Int) = 2 ^ 970 := zpow_natCast 2 970
  have hmantissa : ((2 ^ 54 - 1 : Nat) : ℚ) = 2 ^ 54 - 1 := by norm_num
  rw [dyadic, hlast, hmantissa, overflow, sub_mul, one_mul, ← pow_add]

/-- A number is rounded to a multiple of the power of two that is the last place of the doubles
around it. -/
structure OnGrid (size : ℚ) (mantissa : Nat) (exponent : Int) : Prop where
  rounds : RoundsTo (size / 2 ^ exponent) mantissa
  le_exponent : -1074 ≤ exponent
  size_lt : size < dyadic (2 ^ 53) exponent
  normal : exponent = -1074 ∨ dyadic (2 ^ 52) exponent ≤ size

namespace OnGrid

theorem abs_sub_dyadic (size : ℚ) (m : Nat) (exponent : Int) :
    |size - dyadic m exponent| = |size / 2 ^ exponent - m| * 2 ^ exponent := by
  have hpos : (0 : ℚ) < 2 ^ exponent := by positivity
  rw [dyadic, ← abs_of_pos hpos, ← abs_mul, sub_mul, abs_of_pos hpos, div_mul_cancel₀ _ hpos.ne']

theorem lt_dyadic_iff (m : Nat) : size < dyadic m exponent ↔ size / 2 ^ exponent < m :=
  (div_lt_iff₀ (by positivity)).symm

theorem dyadic_le_iff (m : Nat) : dyadic m exponent ≤ size ↔ m ≤ size / 2 ^ exponent :=
  (le_div_iff₀ (by positivity)).symm

theorem mantissa_le (h : OnGrid size mantissa exponent) : mantissa ≤ 2 ^ 53 := by
  obtain ⟨hnear, -⟩ := abs_le.1 h.rounds.near
  have hlt : size / 2 ^ exponent < 2 ^ 53 := by exact_mod_cast (lt_dyadic_iff _).1 h.size_lt
  have hcast : (mantissa : ℚ) < 2 ^ 53 + 1 := by linarith
  exact Nat.lt_succ_iff.1 (by exact_mod_cast hcast)

theorem normal_mantissa (h : OnGrid size mantissa exponent) :
    exponent = -1074 ∨ 2 ^ 52 ≤ mantissa := by
  refine h.normal.imp_right fun hle => ?_
  obtain ⟨-, hnear⟩ := abs_le.1 h.rounds.near
  have hle : (2 : ℚ) ^ 52 ≤ size / 2 ^ exponent := by exact_mod_cast (dyadic_le_iff _).1 hle
  have hcast : (2 : ℚ) ^ 52 < mantissa + 1 := by linarith
  exact Nat.lt_succ_iff.1 (by exact_mod_cast hcast)

/-- No double is nearer than the multiple: between the multiples there is none so far from zero. -/
theorem near (h : OnGrid size mantissa exponent) (hs : IsSize s) :
    |size - dyadic mantissa exponent| ≤ |size - s| ∧
      (|size - s| = |size - dyadic mantissa exponent| →
        s = dyadic mantissa exponent ∨ Even mantissa) := by
  obtain ⟨y, sign, m, e, hy, rfl⟩ := hs
  have hcanonical := isCanonical_of_ofFloat hy
  rcases le_or_gt exponent e with hle | hlt
  · have hmultiple := dyadic_eq_of_le m hle
    have hpos : (0 : ℚ) < 2 ^ exponent := by positivity
    obtain ⟨hnear, htie⟩ := h.rounds.nearest (m * 2 ^ (e - exponent).toNat)
    rw [hmultiple, abs_sub_dyadic, abs_sub_dyadic]
    refine ⟨mul_le_mul_of_nonneg_right hnear hpos.le, fun heq => ?_⟩
    refine (htie (mul_right_cancel₀ hpos.ne' heq)).imp_left fun hm => ?_
    rw [hm]
  · have hlow : dyadic (2 ^ 52) exponent ≤ size :=
      h.normal.resolve_left (by have := hcanonical.le_exponent; omega)
    have hsmall := dyadic_lt_of_lt hcanonical.mantissa_lt hlt
    have hnear : |size - dyadic mantissa exponent| ≤ |size - dyadic (2 ^ 52) exponent| := by
      rw [abs_sub_dyadic, abs_sub_dyadic]
      exact mul_le_mul_of_nonneg_right (h.rounds.nearest _).1 (by positivity)
    rw [abs_of_nonneg (sub_nonneg.2 hlow)] at hnear
    have hfar : |size - dyadic m e| = size - dyadic m e :=
      abs_of_pos (sub_pos.2 (hsmall.trans_le hlow))
    rw [hfar]
    exact ⟨by linarith, fun heq => by linarith⟩

/-- Up to the greatest double the multiple is a double, and from halfway behind it on it is none. -/
theorem size_lt_overflow_iff (h : OnGrid size mantissa exponent) :
    size < overflow ↔ exponent ≤ 970 ∨ exponent = 971 ∧ mantissa < 2 ^ 53 := by
  have hhalf : overflow / 2 ^ (971 : Int) = 2 ^ 53 - 1 / 2 := by
    have hlast : (2 : ℚ) ^ (971 : Int) = 2 * 2 ^ (970 : Int) := zpow_one_add₀ two_ne_zero 970
    rw [overflow_eq, dyadic, hlast, mul_div_mul_right _ _ (by positivity)]
    norm_num
  have hpos : (0 : ℚ) < 2 ^ (971 : Int) := by positivity
  have hlast (hexponent : exponent = 971) : size < overflow ↔ mantissa < 2 ^ 53 := by
    subst hexponent
    obtain ⟨hlow, hhigh⟩ := abs_le.1 h.rounds.near
    rw [← div_lt_div_iff_of_pos_right hpos, hhalf]
    constructor
    · intro hlt
      have hcast : (mantissa : ℚ) < 2 ^ 53 := by linarith
      exact_mod_cast hcast
    · intro hlt
      have hcast : (mantissa : ℚ) + 1 ≤ 2 ^ 53 := by exact_mod_cast hlt
      refine lt_of_le_of_ne (by linarith) fun heq => ?_
      have hmantissa : (mantissa : ℚ) + 1 = 2 ^ 53 := by linarith
      have heven := h.rounds.even (by rw [heq, abs_of_nonneg] <;> linarith)
      have hodd : mantissa + 1 = 2 ^ 53 := by exact_mod_cast hmantissa
      rw [Nat.even_iff] at heven
      omega
  rcases lt_trichotomy exponent 971 with hlt | heq | hlt
  · refine iff_of_true ?_ (.inl (by omega))
    calc
      size < dyadic (2 ^ 53) exponent := h.size_lt
      _ ≤ dyadic (2 ^ 53) 970 := dyadic_mono _ (by omega)
      _ ≤ dyadic (2 ^ 54 - 1) 970 := dyadic_le_dyadic (by decide) 970
      _ = overflow := overflow_eq.symm
  · rw [hlast heq]
    omega
  · refine iff_of_false (not_lt.2 ?_) (by omega)
    calc
      overflow = dyadic (2 ^ 54 - 1) 970 := overflow_eq
      _ ≤ dyadic (2 ^ 54) 970 := dyadic_le_dyadic (by decide) 970
      _ = dyadic (2 ^ 52) 972 := by rw [dyadic_pow, dyadic_pow]; rfl
      _ ≤ dyadic (2 ^ 52) exponent := dyadic_mono _ (by omega)
      _ ≤ size := h.normal.resolve_left (by omega)

/-- A mantissa that was rounded up to the next power of two is carried into the exponent. -/
theorem exists_canonical (h : OnGrid size mantissa exponent) (hsize : size < overflow) :
    ∃ m e, IsCanonical m e ∧ packed mantissa exponent = packed m e ∧
      dyadic m e = dyadic mantissa exponent ∧ (Even mantissa → Even m) := by
  have hfinite := h.size_lt_overflow_iff.1 hsize
  have hle := h.mantissa_le
  have hlow := h.le_exponent
  rcases Nat.lt_or_eq_of_le hle with hlt | rfl
  · exact ⟨mantissa, exponent, ⟨hlt, hlow, by omega, h.normal_mantissa⟩, rfl, rfl, id⟩
  · refine ⟨2 ^ 52, exponent + 1, ⟨by decide, by omega, by omega, .inr le_rfl⟩, ?_, ?_, fun _ => ?_⟩
    · rw [packed, packed, if_neg (by decide), if_neg (by decide)]
      omega
    · rw [dyadic_pow, dyadic_pow]
      congr 1
      omega
    · decide

theorem isNearest (h : OnGrid size mantissa exponent) (negative : Bool) :
    IsNearest negative size
      (Binary64.ofBits (min (packed mantissa exponent) (2047 * 2 ^ 52) + signBits negative)) := by
  by_cases hsize : size < overflow
  case pos =>
    obtain ⟨m, e, hcanonical, hpacked, hvalue, heven⟩ := h.exists_canonical hsize
    obtain ⟨hlt, hbits⟩ := ofBits_packed negative hcanonical
    rw [hpacked, Nat.min_eq_left hlt.le, hbits]
    refine .finite hsize (fun s hs => ?_) fun s hs heq => ?_
    · rw [hvalue]
      exact (h.near hs).1
    · rw [hvalue] at heq ⊢
      exact ((h.near hs).2 heq).imp_right heven
  case neg =>
    have hlarge := mt h.size_lt_overflow_iff.2 hsize
    have hmantissa : 2 ^ 52 ≤ mantissa := h.normal_mantissa.resolve_left (by omega)
    have hle := h.mantissa_le
    have htop : 2047 * 2 ^ 52 ≤ packed mantissa exponent := by
      rw [packed, if_neg (by omega)]
      omega
    have hbits := ofBits_fields negative (show 2047 < 2 ^ 11 by decide) (show 0 < 2 ^ 52 by decide)
    rw [Nat.min_eq_right htop]
    exact hbits ▸ .infinite (not_lt.1 hsize)

end OnGrid

end Grid

section Quotient
variable {num den : Nat}

/-- The exponent of the last place, as the quotient has it. -/
def lastPlace (num den : Nat) : Int := max (quotientLog 2 Nat.log2 num den - 52) (-1074)

theorem quotientBits_eq (hnum : 0 < num) :
    quotientBits num den = min (packed (divRound (num * 2 ^ (-lastPlace num den).toNat)
      (den * 2 ^ (lastPlace num den).toNat)) (lastPlace num den)) (2047 * 2 ^ 52) := by
  rw [quotientBits, if_neg hnum.ne']
  rfl

theorem onGrid_quotient (hnum : 0 < num) (hden : 0 < den) :
    OnGrid (num / den) (divRound (num * 2 ^ (-lastPlace num den).toNat)
      (den * 2 ^ (lastPlace num den).toNat)) (lastPlace num den) := by
  obtain ⟨hlow, hhigh⟩ := two_zpow_quotientLog hnum hden
  have hlast : lastPlace num den = max (quotientLog 2 Nat.log2 num den - 52) (-1074) := rfl
  generalize lastPlace num den = q at hlast ⊢
  generalize quotientLog 2 Nat.log2 num den = e at hlow hhigh hlast
  constructor
  case rounds =>
    have hscaled : (num / den : ℚ) / 2 ^ q =
        (num * 2 ^ (-q).toNat : Nat) / (den * 2 ^ q.toNat : Nat) := by
      rw [zpow_eq_div two_ne_zero q]
      push_cast
      field_simp
    rw [hscaled]
    exact roundsTo_divRound _ (by positivity)
  case le_exponent => omega
  case size_lt =>
    rw [dyadic_pow]
    exact hhigh.trans_le (zpow_le_zpow_right₀ one_le_two (by omega))
  case normal =>
    rw [dyadic_pow]
    by_cases hq : q = -1074
    · exact .inl hq
    · exact .inr ((zpow_le_zpow_right₀ one_le_two (by omega)).trans hlow)

theorem exists_onGrid (num : Nat) (hden : 0 < den) : ∃ mantissa exponent,
    OnGrid (num / den) mantissa exponent ∧
      quotientBits num den = min (packed mantissa exponent) (2047 * 2 ^ 52) := by
  rcases Nat.eq_zero_or_pos num with rfl | hnum
  · refine ⟨0, -1074, ⟨?_, le_rfl, ?_, .inl rfl⟩, by rw [quotientBits, if_pos rfl]; rfl⟩
    · rw [Nat.cast_zero, zero_div, zero_div]
      exact ⟨by norm_num, fun _ => .zero⟩
    · rw [Nat.cast_zero, zero_div, dyadic_pow]
      positivity
  · exact ⟨_, _, onGrid_quotient hnum hden, quotientBits_eq hnum⟩

theorem IsNearest.ne_nan {negative : Bool} {size : ℚ} {x : Binary64}
    (h : IsNearest negative size x) : x ≠ .nan := by
  cases h <;> exact nofun

/-- The bits of a quotient are those of the double nearest to each number that is rounded to the
same multiple. -/
theorem OnGrid.isNearest_ofQuotient {size : ℚ} {mantissa : Nat} {exponent : Int}
    (h : OnGrid size mantissa exponent)
    (hbits : quotientBits num den = min (packed mantissa exponent) (2047 * 2 ^ 52))
    (negative : Bool) :
    IsNearest negative size (Binary64.ofFloat (ofQuotient negative num den)) := by
  have hnearest := h.isNearest negative
  have hlt : quotientBits num den + signBits negative < 2 ^ 64 := by
    have hsign : signBits negative ≤ 2 ^ 63 := by cases negative <;> decide
    omega
  rw [← hbits] at hnearest
  have hfloat := ofFloat_ofBits hlt hnearest.ne_nan
  rw [← hfloat] at hnearest
  exact hnearest

/-- A quotient is rounded to the nearest double. -/
theorem isNearest_ofQuotient (negative : Bool) (num : Nat) (hden : 0 < den) :
    IsNearest negative (num / den) (Binary64.ofFloat (ofQuotient negative num den)) := by
  obtain ⟨mantissa, exponent, hgrid, hbits⟩ := exists_onGrid num hden
  exact hgrid.isNearest_ofQuotient hbits negative

/-- The double of a natural number is the nearest one. -/
theorem isNearest_ofNat (n : Nat) : IsNearest false n (Binary64.ofFloat (ofNat n)) := by
  have hnearest := isNearest_ofQuotient false n Nat.one_pos
  rwa [Nat.cast_one, div_one] at hnearest

end Quotient

section Unique
variable {negative : Bool} {size : ℚ} {m m' : Nat} {e e' : Int} {x y : Float}

theorem IsNearest.not_dyadic_lt (h : IsCanonical m e) (h' : IsCanonical m' e')
    (hx : IsNearest negative size (.finite negative m e))
    (hy : IsNearest negative size (.finite negative m' e')) : ¬ dyadic m e < dyadic m' e' := by
  intro hlt
  cases hx with
  | finite _ hnear heven =>
    cases hy with
    | finite _ hnear' heven' =>
      have heq : |size - dyadic m' e'| = |size - dyadic m e| :=
        le_antisymm (hnear' _ (isSize_dyadic h)) (hnear _ (isSize_dyadic h'))
      have hm := (heven _ (isSize_dyadic h') heq).resolve_left hlt.ne'
      have hm' := (heven' _ (isSize_dyadic h) heq.symm).resolve_left hlt.ne
      obtain ⟨s, hs, hlow, hhigh⟩ := exists_isSize_between h h' hm hm' hlt
      -- The number is halfway between the two, and what is between these is nearer to it.
      have hhalf : size - dyadic m e = dyadic m' e' - size := by
        rcases abs_eq_abs.1 heq with hsame | hopposite <;> linarith
      have hnearer : |size - s| < |size - dyadic m e| := by
        rw [abs_of_pos (by linarith : 0 < size - dyadic m e)]
        exact abs_lt.2 ⟨by linarith, by linarith⟩
      exact absurd (hnear s hs) (not_le.2 hnearer)

/-- There is only one nearest double. -/
theorem IsNearest.unique (hx : IsNearest negative size (Binary64.ofFloat x))
    (hy : IsNearest negative size (Binary64.ofFloat y)) : x = y := by
  refine ofFloat_inj ?_ hx.ne_nan
  generalize hfx : Binary64.ofFloat x = fx at hx ⊢
  generalize hfy : Binary64.ofFloat y = fy at hy ⊢
  have hxy := hx
  have hyx := hy
  cases hx with
  | infinite hsize =>
    cases hy with
    | infinite => rfl
    | finite hsize' => exact absurd hsize' (not_lt.2 hsize)
  | finite hsize =>
    cases hy with
    | infinite hsize' => exact absurd hsize (not_lt.2 hsize')
    | finite =>
      have h := isCanonical_of_ofFloat hfx
      have h' := isCanonical_of_ofFloat hfy
      have heq := le_antisymm (not_lt.1 (hyx.not_dyadic_lt h' h hxy))
        (not_lt.1 (hxy.not_dyadic_lt h h' hyx))
      obtain ⟨rfl, rfl⟩ := h.eq_of_dyadic_eq h' heq
      rfl

/-- Doubles nearest to all natural numbers are those of these numbers. -/
theorem eq_ofNat_of_isNearest {double : Nat → Float}
    (h : ∀ n : Nat, IsNearest false n (.ofFloat (double n))) : double = ofNat :=
  funext fun n => (h n).unique (isNearest_ofNat n)

/-- A natural number of at most 53 bits is a double itself. -/
theorem ofFloat_ofNat {n : Nat} (hn : n < 2 ^ 53) : ∃ mantissa exponent,
    Binary64.ofFloat (ofNat n) = .finite false mantissa exponent ∧
      dyadic mantissa exponent = n := by
  have hnearest := isNearest_ofNat n
  generalize Binary64.ofFloat (ofNat n) = x at hnearest ⊢
  cases hnearest with
  | finite _ hnear =>
    have hzero := hnear n (isSize_natCast hn)
    rw [sub_self, abs_zero, abs_nonpos_iff, sub_eq_zero] at hzero
    exact ⟨_, _, rfl, hzero.symm⟩
  | infinite hlarge =>
    have hsmall : (n : ℚ) < overflow := by
      calc
        (n : ℚ) = dyadic n 0 := (dyadic_zero n).symm
        _ ≤ dyadic n 970 := dyadic_mono n (by decide)
        _ < dyadic (2 ^ 54 - 1) 970 := dyadic_lt_dyadic_iff.2 (by omega)
        _ = overflow := overflow_eq.symm
    exact absurd hlarge (not_le.2 hsmall)

end Unique
end SourceGauge.Number
