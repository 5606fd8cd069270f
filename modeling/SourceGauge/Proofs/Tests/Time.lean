import Mathlib
import SourceGauge.Proofs.Number.Decimal
import SourceGauge.Proofs.Tests.Count

/-! Times as they are written in the attributes of a report: decimal numbers of seconds with blank
characters around them and commas anywhere within. A time is rounded twice, to a double and then to
whole nanoseconds. -/
namespace SourceGauge
open Number (dyadic RoundsTo)

/-- The double is a number of seconds that is a time, which is rounded to so many nanoseconds. -/
inductive IsTime : Number.Binary64 → Nat → Prop
  | seconds {negative : Bool} {mantissa : Nat} {exponent : Int} {nanos : Nat}
    (hsign : negative = true → mantissa = 0) (hsize : dyadic mantissa exponent < 2 ^ 64)
    (hnanos : RoundsTo (dyadic mantissa exponent * 10 ^ 9) nanos) :
    IsTime (.finite negative mantissa exponent) nanos

/-- The value is a decimal number of seconds, once the blank characters around it and all commas are
gone, and the double nearest to it is a time of so many nanoseconds. -/
def WritesTime (value : String) (nanos : Nat) : Prop :=
  ∃ before body after, value.toList = before ++ (body ++ after) ∧
    Text.Encloses Text.isBlank before body after ∧
    ∃ x, Number.Reads (body.filter (· ≠ ',')) x ∧ IsTime (.ofFloat x) nanos

theorem nanosOf?_eq_some_iff {seconds : Number.Binary64} {nanos : Nat} :
    nanosOf? seconds = some nanos ↔ IsTime seconds nanos := by
  cases seconds with
  | nan => exact iff_of_false nofun nofun
  | infinite => exact iff_of_false nofun nofun
  | finite negative mantissa exponent =>
    have hdown : 0 < 2 ^ (-exponent).toNat := by positivity
    have hvalue := Number.dyadic_eq_div mantissa exponent
    have hlarge : 2 ^ 64 * 2 ^ (-exponent).toNat ≤ mantissa * 2 ^ exponent.toNat ↔
        ¬ dyadic mantissa exponent < 2 ^ 64 := by
      rw [hvalue, not_lt, le_div_iff₀ (by exact_mod_cast hdown)]
      exact_mod_cast Iff.rfl
    have hrounds : RoundsTo (dyadic mantissa exponent * 10 ^ 9)
        (Number.divRound (mantissa * 2 ^ exponent.toNat * 10 ^ 9) (2 ^ (-exponent).toNat)) := by
      have hdiv := Number.roundsTo_divRound (mantissa * 2 ^ exponent.toNat * 10 ^ 9) hdown
      rw [hvalue, div_mul_eq_mul_div]
      exact_mod_cast hdiv
    simp only [nanosOf?, Bool.or_eq_true, Bool.and_eq_true, decide_eq_true_eq, hlarge]
    split
    case isTrue hbad =>
      refine iff_of_false nofun ?_
      rintro ⟨hsign, hsize⟩
      exact hbad.elim (fun h => h.2 (hsign h.1)) fun h => h hsize
    case isFalse hgood =>
      rw [not_or, not_and_not_right, not_not] at hgood
      constructor
      · intro h
        obtain rfl := Option.some.inj h
        exact .seconds hgood.1 hgood.2 hrounds
      · rintro ⟨-, -, hnanos⟩
        exact congrArg some (hrounds.unique hnanos)

theorem duration?_eq_some_iff {value : String} {nanos : Nat} :
    duration? value = some nanos ↔ WritesTime value nanos := by
  have hbody : WritesTime value nanos ↔ _ :=
    exists_body_iff fun cs => ∃ x, Number.Reads cs x ∧ IsTime (.ofFloat x) nanos
  rw [hbody, duration?, Option.bind_eq_some_iff]
  refine exists_congr fun x => ?_
  rw [nanosOf?_eq_some_iff]
  refine and_congr_left fun htime => ?_
  generalize hx : Number.Binary64.ofFloat x = seconds at htime
  cases htime
  exact Number.float?_eq_some_iff hx

/-- The value of an attribute is taken as a time exactly if it is a decimal number of seconds of
which the nearest double is neither negative nor too large, apart from blank characters around it
and commas, and is that many nanoseconds then. Every other value is refused as it is written. -/
theorem numberOr_duration (attr value : String) (missing : Nat) :
    (∀ nanos, numberOr duration? attr (some value) missing = .ok nanos ↔
      WritesTime value nanos) ∧
    ∀ bad, numberOr duration? attr (some value) missing = .error bad ↔
      (∀ nanos, ¬ WritesTime value nanos) ∧ bad = ⟨attr, value⟩ := by
  simp only [← duration?_eq_some_iff, numberOr]
  cases duration? value <;> simp [eq_comm]

example : duration? "\t1,000.5" = some 1000500000000 := by decide +kernel
example : duration? "-1e-400" = some 0 := by decide +kernel
example : duration? "18446744073709551616" = none := by decide +kernel
example : duration? "infinity" = none := by decide +kernel

end SourceGauge
