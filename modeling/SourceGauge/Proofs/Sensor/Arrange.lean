import Mathlib.Data.List.Sort
import Mathlib.Logic.Relation
import Mathlib.Order.WellFoundedSet
import SourceGauge.Sensor.Order

/-! Arranging numbers under an acyclic relation "comes before": no number is lost, none stands
before one that must precede it, and no other such arrangement is lexicographically smaller. -/
namespace SourceGauge.Order

/-- A chain of one step or more leads from one number to another. -/
def Leads (before : Nat → Nat → Bool) : Nat → Nat → Prop :=
  Relation.TransGen fun i j => before i j = true

/-- No chain leads back to where it begins. -/
def Acyclic (before : Nat → Nat → Bool) : Prop := ∀ i, ¬ Leads before i i

/-- No number stands before one that must precede it. -/
def Respects (before : Nat → Nat → Bool) (order : List Nat) : Prop :=
  order.Pairwise fun i j => before j i = false

variable {before : Nat → Nat → Bool}

/-- Among finitely many numbers there is one that no other must precede. -/
theorem Acyclic.exists_free (h : Acyclic before) {remaining : List Nat} (hne : remaining ≠ []) :
    ∃ i ∈ remaining, ∀ j ∈ remaining, before j i = false := by
  have htrans : IsTrans Nat (Leads before) := ⟨fun _ _ _ => Relation.TransGen.trans⟩
  have hirrefl : Std.Irrefl (Leads before) := ⟨h⟩
  have horder : IsStrictOrder Nat (Leads before) := { }
  have hwf := (List.finite_toSet remaining).wellFoundedOn (r := Leads before)
  obtain ⟨i, hi⟩ := List.exists_mem_of_ne_nil remaining hne
  obtain ⟨m, -, hmin⟩ := hwf.has_min Set.univ ⟨⟨i, hi⟩, trivial⟩
  refine ⟨m.1, m.2, fun j hj => ?_⟩
  by_contra hbefore
  exact hmin ⟨j, hj⟩ trivial (.single (by simpa using hbefore))

theorem mem_of_mem_arrange {remaining : List Nat} {i : Nat} (h : i ∈ arrange before remaining) :
    i ∈ remaining := by
  fun_induction arrange before remaining with
  | case1 => cases h
  | case2 remaining k hk ih =>
    rcases List.mem_cons.1 h with rfl | h
    · exact List.mem_of_find?_eq_some hk
    · exact List.mem_of_mem_erase (ih h)

/-- Nothing is lost when no chain leads back. -/
theorem arrange_perm (h : Acyclic before) (remaining : List Nat) :
    (arrange before remaining).Perm remaining := by
  fun_induction arrange before remaining with
  | case1 remaining hnone =>
    rw [List.find?_eq_none] at hnone
    by_contra hne
    have hremaining : remaining ≠ [] := fun h => hne (h ▸ .nil)
    obtain ⟨i, hi, hfree⟩ := h.exists_free hremaining
    apply hnone i hi
    simpa using hfree
  | case2 remaining i hi ih =>
    exact (ih.cons i).trans (List.perm_cons_erase (List.mem_of_find?_eq_some hi)).symm

theorem arrange_respects (remaining : List Nat) : Respects before (arrange before remaining) := by
  fun_induction arrange before remaining with
  | case1 => exact .nil
  | case2 remaining i hi ih =>
    refine List.pairwise_cons.2 ⟨fun j hj => ?_, ih⟩
    have hfree : ∀ j ∈ remaining, before j i = false := by simpa using List.find?_some hi
    exact hfree j (List.mem_of_mem_erase (mem_of_mem_arrange hj))

/-- The first number of any other order could come first here as well. -/
theorem head_free (hirrefl : ∀ i, before i i = false) {remaining rest : List Nat} {b : Nat}
    (hperm : (b :: rest).Perm remaining) (hrespects : Respects before (b :: rest)) :
    ∀ j ∈ remaining, before j b = false := by
  intro j hj
  rcases List.mem_cons.1 (hperm.mem_iff.2 hj) with rfl | hj
  · exact hirrefl j
  · exact (List.pairwise_cons.1 hrespects).1 j hj

/-- Where an order first differs from the arrangement, it has a greater number. -/
theorem arrange_least (hirrefl : ∀ i, before i i = false) {remaining : List Nat}
    (hsorted : remaining.Pairwise (· < ·)) {other : List Nat} (hperm : other.Perm remaining)
    (hrespects : Respects before other) {k a b : Nat}
    (ha : (arrange before remaining)[k]? = some a) (hb : other[k]? = some b)
    (hsame : (arrange before remaining).take k = other.take k) : a ≤ b := by
  fun_induction arrange before remaining generalizing other k with
  | case1 => simp at ha
  | case2 remaining i hi ih =>
    cases other with
    | nil => simp at hb
    | cons first rest =>
      cases k with
      | zero =>
        simp only [List.getElem?_cons_zero, Option.some.injEq] at ha hb
        subst ha hb
        obtain ⟨-, passed, later, rfl, hpassed⟩ := List.find?_eq_some_iff_append.1 hi
        have hfree := head_free hirrefl hperm hrespects
        rcases List.mem_append.1 (hperm.mem_iff.1 List.mem_cons_self) with hmem | hmem
        · have hany : (passed ++ i :: later).any (before · first) = true := by
            simpa using hpassed first hmem
          obtain ⟨j, hj, hbefore⟩ := List.any_eq_true.1 hany
          exact absurd hbefore (by simp [hfree j hj])
        · rcases List.mem_cons.1 hmem with rfl | hmem
          · exact Nat.le_refl _
          · have htail := (List.pairwise_append.1 hsorted).2.1
            exact Nat.le_of_lt ((List.pairwise_cons.1 htail).1 first hmem)
      | succ k =>
        obtain ⟨rfl, htake⟩ := List.cons.inj hsame
        refine ih ?_ ?_ (List.pairwise_cons.1 hrespects).2 ha hb htake
        · exact hsorted.sublist List.erase_sublist
        · have herase := hperm.erase i
          rwa [List.erase_cons_head] at herase

end SourceGauge.Order
