import Mathlib
import SourceGauge.Number.Binary64

/-! What doubles stand for. A finite double is told by its sign, its mantissa and its exponent, and
each mantissa of 53 bits with an exponent in range is that of a double. Natural numbers of at most
53 bits are among them. -/
namespace SourceGauge.Number

/-- The number that a mantissa and an exponent stand for. -/
def dyadic (mantissa : Nat) (exponent : Int) : ℚ := mantissa * 2 ^ exponent

/-- What some finite double stands for, its sign aside. -/
def IsSize (s : ℚ) : Prop :=
  ∃ (y : Float) (negative : Bool) (mantissa : Nat) (exponent : Int),
    Binary64.ofFloat y = .finite negative mantissa exponent ∧ s = dyadic mantissa exponent

section Bits
variable {negative : Bool} {field fraction mantissa bits : Nat} {exponent : Int}

/-- The bits of a sign. -/
def signBits (negative : Bool) : Nat := if negative then 2 ^ 63 else 0

theorem ofBits_fields (negative : Bool) (hfield : field < 2 ^ 11) (hfraction : fraction < 2 ^ 52) :
    Binary64.ofBits (field * 2 ^ 52 + fraction + signBits negative) =
      if field = 2047 then (if fraction = 0 then .infinite negative else .nan)
      else if field = 0 then .finite negative fraction (-1074)
      else .finite negative (fraction + 2 ^ 52) (field - 1075) := by
  generalize hbits : field * 2 ^ 52 + fraction + signBits negative = bits
  have hhigh : bits / 2 ^ 52 = field + if negative then 2 ^ 11 else 0 := by
    cases negative <;> simp [signBits] at hbits ⊢ <;> omega
  have hexponent : bits / 2 ^ 52 % 2 ^ 11 = field := by
    rw [hhigh]
    cases negative <;> simp <;> omega
  have hsign : bits / 2 ^ 63 % 2 = if negative then 1 else 0 := by
    have hpow : (2 : Nat) ^ 63 = 2 ^ 52 * 2 ^ 11 := rfl
    rw [hpow, ← Nat.div_div_eq_div_mul, hhigh]
    cases negative <;> simp <;> omega
  have hrest : bits % 2 ^ 52 = fraction := by
    cases negative <;> simp [signBits] at hbits ⊢ <;> omega
  rw [Binary64.ofBits, hsign, hexponent, hrest]
  cases negative <;> simp

/-- A pattern of 64 bits is a sign, a field for the exponent and one for the fraction. -/
theorem exists_fields (hbits : bits < 2 ^ 64) : ∃ negative field fraction, field < 2 ^ 11 ∧
    fraction < 2 ^ 52 ∧ bits = field * 2 ^ 52 + fraction + signBits negative := by
  refine ⟨decide (2 ^ 63 ≤ bits), bits / 2 ^ 52 % 2 ^ 11, bits % 2 ^ 52, by omega, by omega, ?_⟩
  by_cases h : 2 ^ 63 ≤ bits
  · simp only [signBits, h, decide_true, if_true]
    omega
  · simp only [signBits, h, decide_false, Bool.false_eq_true, if_false]
    omega

/-- A pattern is kept, unless it is that of a value that is no number. -/
theorem toBits_ofBits {u : UInt64} (h : Binary64.ofBits u.toNat ≠ .nan) :
    (Float.ofBits u).toBits = u := by
  have hnan : @Float.Model.UnpackedFloat.isNaNBits .binary64 u.toBitVec = false := by
    rw [Float.Model.UnpackedFloat.isNaNBits, decide_eq_false_iff_not]
    rintro ⟨hexponent, hmantissa⟩
    have hfield : u.toNat / 2 ^ 52 % 2 ^ 11 = 2047 := by
      have := congrArg BitVec.toNat hexponent
      simpa [Float.Model.UnpackedFloat.unpackExponent_def, Nat.shiftRight_eq_div_pow] using this
    have hfraction : u.toNat % 2 ^ 52 ≠ 0 := by
      intro hzero
      refine hmantissa (BitVec.eq_of_toNat_eq ?_)
      simpa [Float.Model.UnpackedFloat.unpackMantissa_def] using hzero
    refine h ?_
    rw [Binary64.ofBits, hfield, if_pos rfl, if_neg hfraction]
  have hpack := @Float.Model.UnpackedFloat.pack_unpack .binary64 u.toBitVec (by decide)
  rw [hnan, if_neg Bool.false_ne_true] at hpack
  exact UInt64.toBitVec_inj.1 hpack

theorem ofFloat_ofBits (hbits : bits < 2 ^ 64) (h : Binary64.ofBits bits ≠ .nan) :
    Binary64.ofFloat (Float.ofBits (UInt64.ofNat bits)) = Binary64.ofBits bits := by
  have hnat : (UInt64.ofNat bits).toNat = bits := UInt64.toNat_ofNat_of_lt' hbits
  rw [Binary64.ofFloat, toBits_ofBits (by rwa [hnat]), hnat]

end Bits

section Dyadic

theorem zpow_eq_div {b : ℚ} (hb : b ≠ 0) (e : Int) : b ^ e = b ^ e.toNat / b ^ (-e).toNat := by
  rw [← zpow_natCast, ← zpow_natCast, ← zpow_sub₀ hb]
  congr 1
  omega

theorem dyadic_eq_div (m : Nat) (e : Int) :
    dyadic m e = (m * 2 ^ e.toNat : Nat) / (2 ^ (-e).toNat : Nat) := by
  rw [dyadic, zpow_eq_div two_ne_zero, ← mul_div_assoc]
  push_cast
  rfl

theorem dyadic_mono (m : Nat) {e e' : Int} (h : e ≤ e') : dyadic m e ≤ dyadic m e' := by
  unfold dyadic
  gcongr
  exact one_le_two

theorem dyadic_le_dyadic {m n : Nat} (h : m ≤ n) (e : Int) : dyadic m e ≤ dyadic n e := by
  unfold dyadic
  gcongr

theorem dyadic_pow (k : Nat) (e : Int) : dyadic (2 ^ k) e = 2 ^ (e + k) := by
  rw [dyadic, zpow_add₀ two_ne_zero, zpow_natCast, mul_comm]
  push_cast
  rfl

/-- Written with a smaller exponent. -/
theorem dyadic_eq_of_le (m : Nat) {e e' : Int} (h : e ≤ e') :
    dyadic m e' = dyadic (m * 2 ^ (e' - e).toNat) e := by
  rw [dyadic, dyadic, Nat.cast_mul, mul_assoc, Nat.cast_pow, ← zpow_natCast,
    Int.toNat_of_nonneg (by omega), Nat.cast_two, ← zpow_add₀ two_ne_zero, sub_add_cancel]

/-- With a smaller exponent, a mantissa of 53 bits does not reach the normal ones. -/
theorem dyadic_lt_of_lt {m : Nat} (hm : m < 2 ^ 53) {e e' : Int} (h : e < e') :
    dyadic m e < dyadic (2 ^ 52) e' := by
  have hcast : (m : ℚ) < 2 ^ 53 := by exact_mod_cast hm
  calc
    dyadic m e < 2 ^ 53 * 2 ^ e := mul_lt_mul_of_pos_right hcast (by positivity)
    _ = dyadic (2 ^ 52) (e + 1) := by
      rw [dyadic_pow, ← zpow_natCast, ← zpow_add₀ two_ne_zero]
      congr 1
      omega
    _ ≤ dyadic (2 ^ 52) e' := dyadic_mono _ h

theorem dyadic_zero (n : Nat) : dyadic n 0 = n := by rw [dyadic, zpow_zero, mul_one]

theorem dyadic_lt_dyadic_iff {m m' : Nat} {e : Int} : dyadic m e < dyadic m' e ↔ m < m' := by
  have hpos : (0 : ℚ) < 2 ^ e := by positivity
  rw [dyadic, dyadic, mul_lt_mul_iff_left₀ hpos, Nat.cast_lt]

end Dyadic

section Canonical
variable {negative : Bool} {mantissa m m' : Nat} {exponent e e' : Int} {x y : Float}

/-- A mantissa and an exponent as doubles have them. -/
structure IsCanonical (mantissa : Nat) (exponent : Int) : Prop where
  mantissa_lt : mantissa < 2 ^ 53
  le_exponent : -1074 ≤ exponent
  exponent_le : exponent ≤ 971
  normal : exponent = -1074 ∨ 2 ^ 52 ≤ mantissa

/-- The fields for the exponent and the fraction, for a mantissa of at most 53 bits or the power of
two behind these. -/
def packed (mantissa : Nat) (exponent : Int) : Nat :=
  if mantissa < 2 ^ 52 then mantissa
  else (exponent + 1075).toNat * 2 ^ 52 + (mantissa - 2 ^ 52)

theorem isCanonical_of_ofFloat (h : Binary64.ofFloat y = .finite negative mantissa exponent) :
    IsCanonical mantissa exponent := by
  obtain ⟨sign, field, fraction, hfield, hfraction, hbits⟩ := exists_fields y.toBits.toNat_lt
  rw [Binary64.ofFloat, hbits, ofBits_fields sign hfield hfraction] at h
  split_ifs at h with htop hzero hlow
  · obtain ⟨-, rfl, rfl⟩ := Binary64.finite.inj h
    exact ⟨by omega, by omega, by omega, .inl rfl⟩
  · obtain ⟨-, rfl, rfl⟩ := Binary64.finite.inj h
    exact ⟨by omega, by omega, by omega, .inr (by omega)⟩

theorem ofBits_packed (negative : Bool) (h : IsCanonical mantissa exponent) :
    packed mantissa exponent < 2047 * 2 ^ 52 ∧
      Binary64.ofBits (packed mantissa exponent + signBits negative) =
        .finite negative mantissa exponent := by
  obtain ⟨hmantissa, hle, hge, hnormal⟩ := h
  rw [packed]
  split
  case isTrue hlow =>
    obtain rfl : exponent = -1074 := hnormal.resolve_right (by omega)
    have hbits := ofBits_fields negative (show 0 < 2 ^ 11 by decide) hlow
    rw [Nat.zero_mul, Nat.zero_add] at hbits
    exact ⟨by omega, hbits⟩
  case isFalse hlow =>
    have hfield : (exponent + 1075).toNat < 2 ^ 11 := by omega
    have hfraction : mantissa - 2 ^ 52 < 2 ^ 52 := by omega
    have hbits := ofBits_fields negative hfield hfraction
    rw [if_neg (by omega), if_neg (by omega), Nat.sub_add_cancel (by omega),
      Int.toNat_of_nonneg (by omega), add_sub_cancel_right] at hbits
    exact ⟨by omega, hbits⟩

theorem isSize_dyadic (h : IsCanonical mantissa exponent) : IsSize (dyadic mantissa exponent) := by
  obtain ⟨hlt, hbits⟩ := ofBits_packed false h
  have hne : Binary64.ofBits (packed mantissa exponent) ≠ .nan := by
    rw [← Nat.add_zero (packed _ _)]
    exact hbits ▸ nofun
  refine ⟨_, false, _, _, (ofFloat_ofBits (by omega) hne).trans hbits, rfl⟩

theorem IsCanonical.exponent_le_of_dyadic_le (h : IsCanonical m e) (h' : IsCanonical m' e')
    (hle : dyadic m e ≤ dyadic m' e') : e ≤ e' := by
  by_contra hlt
  have hnormal : 2 ^ 52 ≤ m := h.normal.resolve_left (by have := h'.le_exponent; omega)
  have hsmall := dyadic_lt_of_lt h'.mantissa_lt (not_le.1 hlt)
  exact absurd hle (not_le.2 (hsmall.trans_le (dyadic_le_dyadic hnormal e)))

theorem IsCanonical.eq_of_dyadic_eq (h : IsCanonical m e) (h' : IsCanonical m' e')
    (heq : dyadic m e = dyadic m' e') : m = m' ∧ e = e' := by
  obtain rfl : e = e' := Int.le_antisymm (h.exponent_le_of_dyadic_le h' heq.le)
    (h'.exponent_le_of_dyadic_le h heq.ge)
  have hpos : (0 : ℚ) < 2 ^ e := by positivity
  exact ⟨Nat.cast_injective (mul_right_cancel₀ hpos.ne' heq), rfl⟩

/-- Between two doubles with even mantissas there is another one. -/
theorem exists_isSize_between (h : IsCanonical m e) (h' : IsCanonical m' e') (hm : Even m)
    (hm' : Even m') (hlt : dyadic m e < dyadic m' e') :
    ∃ s, IsSize s ∧ dyadic m e < s ∧ s < dyadic m' e' := by
  obtain ⟨hmantissa, hlow, hhigh, hnormal⟩ := h
  have hle : e ≤ e' :=
    IsCanonical.exponent_le_of_dyadic_le ⟨hmantissa, hlow, hhigh, hnormal⟩ h' hlt.le
  rw [Nat.even_iff] at hm
  have hnext : IsCanonical (m + 1) e := ⟨by omega, hlow, hhigh, hnormal.imp_right (by omega)⟩
  rw [dyadic_eq_of_le m' hle, dyadic_lt_dyadic_iff] at hlt
  refine ⟨_, isSize_dyadic hnext, dyadic_lt_dyadic_iff.2 (Nat.lt_succ_self m), ?_⟩
  rw [dyadic_eq_of_le m' hle, dyadic_lt_dyadic_iff]
  have heven := Nat.even_iff.1 (hm'.mul_right (2 ^ (e' - e).toNat))
  omega

theorem ofFloat_inj (h : Binary64.ofFloat x = Binary64.ofFloat y)
    (hx : Binary64.ofFloat x ≠ .nan) : x = y := by
  obtain ⟨sign, field, fraction, hfield, hfraction, hbits⟩ := exists_fields x.toBits.toNat_lt
  obtain ⟨sign', field', fraction', hfield', hfraction', hbits'⟩ := exists_fields y.toBits.toNat_lt
  rw [Binary64.ofFloat, hbits, ofBits_fields sign hfield hfraction] at h hx
  rw [Binary64.ofFloat, hbits', ofBits_fields sign' hfield' hfraction'] at h
  have hsame : sign = sign' ∧ field = field' ∧ fraction = fraction' := by
    split_ifs at h hx <;> simp_all
    omega
  obtain ⟨rfl, rfl, rfl⟩ := hsame
  exact Float.toBits_inj.1 (UInt64.toNat_inj.1 (hbits.trans hbits'.symm))

theorem isSize_natCast {n : Nat} (hn : n < 2 ^ 53) : IsSize n := by
  rcases Nat.eq_zero_or_pos n with rfl | hpos
  · have hzero := @isSize_dyadic 0 (-1074) ⟨by decide, le_rfl, by decide, .inl rfl⟩
    rwa [dyadic, Nat.cast_zero, zero_mul] at hzero
  · have hlog : n.log2 < 53 := (Nat.log2_lt hpos.ne').2 hn
    have hlow : 2 ^ 52 ≤ n * 2 ^ (52 - n.log2) := by
      calc
        2 ^ 52 = 2 ^ n.log2 * 2 ^ (52 - n.log2) := by rw [← pow_add]; congr 1; omega
        _ ≤ n * 2 ^ (52 - n.log2) := Nat.mul_le_mul_right _ (Nat.log2_self_le hpos.ne')
    have hhigh : n * 2 ^ (52 - n.log2) < 2 ^ 53 := by
      calc
        n * 2 ^ (52 - n.log2) < 2 ^ (n.log2 + 1) * 2 ^ (52 - n.log2) :=
          Nat.mul_lt_mul_of_pos_right Nat.lt_log2_self (by positivity)
        _ = 2 ^ 53 := by rw [← pow_add]; congr 1; omega
    have hsize := @isSize_dyadic _ (n.log2 - 52) ⟨hhigh, by omega, by omega, .inr hlow⟩
    have hshift : (0 - ((n.log2 : Int) - 52)).toNat = 52 - n.log2 := by omega
    rwa [← hshift, ← dyadic_eq_of_le n (by omega), dyadic_zero] at hsize

end Canonical
end SourceGauge.Number
