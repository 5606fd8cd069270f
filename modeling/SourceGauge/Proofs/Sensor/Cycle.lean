import Mathlib.Data.Finset.Card
import SourceGauge.Proofs.Sensor.Arrange

/-! Cycles of the relation "comes before". A search over chains of bounded length finds all that a
chain can reach, so components are the sets of mutually reachable numbers; and some component of
more than one number is found exactly when there is one. -/
namespace SourceGauge.Order

/-- The relation holds between numbers below the bound only. -/
def Within (before : Nat → Nat → Bool) (size : Nat) : Prop :=
  ∀ i j, before i j = true → i < size ∧ j < size

/-- Chains lead both ways. -/
def Mutual (before : Nat → Nat → Bool) (i j : Nat) : Prop := Leads before i j ∧ Leads before j i

variable {before : Nat → Nat → Bool} {size : Nat}

section Reach

/-- No step leads out of the numbers. -/
def Closed (before : Nat → Nat → Bool) (size : Nat) (ns : List Nat) : Prop :=
  ∀ i ∈ ns, ∀ j < size, before i j = true → j ∈ ns

/-- One step of the search: the numbers themselves and those that follow directly. -/
def spread (before : Nat → Nat → Bool) (size : Nat) (ns : List Nat) : List Nat :=
  (List.range size).filter fun j => ns.contains j || ns.any (before · j)

theorem mem_spread {ns : List Nat} {j : Nat} :
    j ∈ spread before size ns ↔ j < size ∧ (j ∈ ns ∨ ∃ i ∈ ns, before i j = true) := by
  simp [spread]

theorem nodup_spread (ns : List Nat) : (spread before size ns).Nodup :=
  List.nodup_range.filter _

theorem reach_succ (steps : Nat) (ns : List Nat) :
    reach before size (steps + 1) ns = reach before size steps (spread before size ns) := rfl

/-- Nothing is added to numbers that no step leads out of. -/
theorem Closed.mem_reach_iff {ns : List Nat} (h : Closed before size ns)
    (hlt : ∀ j ∈ ns, j < size) (steps : Nat) {j : Nat} :
    j ∈ reach before size steps ns ↔ j ∈ ns := by
  induction steps generalizing ns with
  | zero => rfl
  | succ steps ih =>
    have hsame : ∀ k, k ∈ spread before size ns ↔ k ∈ ns := by
      intro k
      rw [mem_spread]
      constructor
      · rintro ⟨hk, hmem | ⟨i, hi, hbefore⟩⟩
        · exact hmem
        · exact h i hi k hk hbefore
      · exact fun hk => ⟨hlt k hk, .inl hk⟩
    have hclosed : Closed before size (spread before size ns) := by
      intro i hi k hk hbefore
      rw [hsame] at hi ⊢
      exact h i hi k hk hbefore
    rw [reach_succ, ih hclosed fun k hk => (mem_spread.1 hk).1, hsame]

/-- Each step adds a number unless nothing is left to add, so as many steps as there are numbers
suffice. -/
theorem closed_reach (steps : Nat) {ns : List Nat} (hnodup : ns.Nodup) (hlt : ∀ j ∈ ns, j < size)
    (hsteps : size ≤ steps + ns.length) : Closed before size (reach before size steps ns) := by
  induction steps generalizing ns with
  | zero =>
    have hsubset : ns.toFinset ⊆ Finset.range size := by
      intro j hj
      simpa using hlt j (by simpa using hj)
    have hall : ns.toFinset = Finset.range size := by
      apply Finset.eq_of_subset_of_card_le hsubset
      rw [Finset.card_range, List.toFinset_card_of_nodup hnodup]
      omega
    intro i _ j hj _
    rw [reach, ← List.mem_toFinset, hall, Finset.mem_range]
    exact hj
  | succ steps ih =>
    by_cases hclosed : Closed before size ns
    · intro i hi j hj hbefore
      rw [hclosed.mem_reach_iff hlt] at hi ⊢
      exact hclosed i hi j hj hbefore
    · obtain ⟨i, hi, j, hj, hbefore, hnot⟩ :
          ∃ i ∈ ns, ∃ j < size, before i j = true ∧ j ∉ ns := by
        simpa [Closed] using hclosed
      have hsubset : j :: ns ⊆ spread before size ns := by
        intro k hk
        rw [mem_spread]
        rcases List.mem_cons.1 hk with rfl | hk
        · exact ⟨hj, .inr ⟨i, hi, hbefore⟩⟩
        · exact ⟨hlt k hk, .inl hk⟩
      have hgrows := (List.subperm_of_subset (hnodup.cons hnot) hsubset).length_le
      rw [reach_succ]
      apply ih (nodup_spread ns) fun k hk => (mem_spread.1 hk).1
      rw [List.length_cons] at hgrows
      omega

theorem subset_reach {ns : List Nat} (hlt : ∀ j ∈ ns, j < size) (steps : Nat) :
    ns ⊆ reach before size steps ns := by
  induction steps generalizing ns with
  | zero => exact List.Subset.refl ns
  | succ steps ih =>
    have hspread : ns ⊆ spread before size ns := fun j hj => mem_spread.2 ⟨hlt j hj, .inl hj⟩
    exact List.Subset.trans hspread (ih fun k hk => (mem_spread.1 hk).1)

/-- Whatever the search finds, a chain from one of the numbers given leads there. -/
theorem leads_of_mem_reach {steps : Nat} {ns : List Nat} {j : Nat}
    (h : j ∈ reach before size steps ns) : ∃ i ∈ ns, j = i ∨ Leads before i j := by
  induction steps generalizing ns with
  | zero => exact ⟨j, h, .inl rfl⟩
  | succ steps ih =>
    obtain ⟨k, hk, hkj⟩ := ih h
    obtain ⟨-, hmem | ⟨i, hi, hbefore⟩⟩ := mem_spread.1 hk
    · exact ⟨k, hmem, hkj⟩
    · refine ⟨i, hi, .inr ?_⟩
      rcases hkj with rfl | hkj
      · exact .single hbefore
      · exact .head hbefore hkj

/-- The search finds exactly the numbers that a chain leads to. -/
theorem reaches_iff (hwithin : Within before size) {i j : Nat} :
    reaches before size i j = true ↔ Leads before i j := by
  have hmem : ∀ k, k ∈ (List.range size).filter (before i) ↔ before i k = true := by
    intro k
    simp only [List.mem_filter, List.mem_range, and_iff_right_iff_imp]
    exact fun hbefore => (hwithin i k hbefore).2
  have hlt : ∀ k ∈ (List.range size).filter (before i), k < size := fun k hk =>
    (hwithin i k ((hmem k).1 hk)).2
  rw [reaches, List.contains_iff_mem]
  constructor
  · intro h
    obtain ⟨k, hk, hkj⟩ := leads_of_mem_reach h
    have hbefore := (hmem k).1 hk
    rcases hkj with rfl | hkj
    · exact .single hbefore
    · exact .head hbefore hkj
  · intro h
    have hclosed : Closed before size
        (reach before size size ((List.range size).filter (before i))) :=
      closed_reach size (List.nodup_range.filter _) hlt (Nat.le_add_right _ _)
    induction h with
    | single hbefore => exact subset_reach hlt size ((hmem _).2 hbefore)
    | tail _ hbefore ih => exact hclosed _ ih _ (hwithin _ _ hbefore).2 hbefore

end Reach

section Component

theorem mem_component (hwithin : Within before size) {i j : Nat} :
    j ∈ component before size i ↔ j < size ∧ (j = i ∨ Mutual before i j) := by
  simp [component, Mutual, reaches_iff hwithin]

theorem Mutual.symm {i j : Nat} (h : Mutual before i j) : Mutual before j i := And.symm h

theorem Mutual.trans {i j k : Nat} (h : Mutual before i j) (h' : Mutual before j k) :
    Mutual before i k :=
  ⟨Relation.TransGen.trans h.1 h'.1, Relation.TransGen.trans h'.2 h.2⟩

theorem Leads.lt_size (hwithin : Within before size) {i j : Nat} (h : Leads before i j) :
    i < size ∧ j < size := by
  induction h with
  | single hbefore => exact hwithin _ _ hbefore
  | tail _ hbefore ih => exact ⟨ih.1, (hwithin _ _ hbefore).2⟩

/-- The members of a component all have that component. -/
theorem component_eq (hwithin : Within before size) {i j : Nat}
    (h : j ∈ component before size i) : component before size j = component before size i := by
  obtain ⟨-, rfl | hij⟩ := (mem_component hwithin).1 h
  · rfl
  · apply List.filter_congr
    intro k _
    have hsame : (k = j ∨ Mutual before j k) ↔ (k = i ∨ Mutual before i k) := by
      constructor
      · rintro (rfl | hjk)
        · exact .inr hij
        · exact .inr (hij.trans hjk)
      · rintro (rfl | hik)
        · exact .inr hij.symm
        · exact .inr (hij.symm.trans hik)
    rw [Bool.eq_iff_iff]
    simp only [Bool.or_eq_true, Bool.and_eq_true, decide_eq_true_eq, reaches_iff hwithin]
    exact hsame

/-- A component has a second member exactly when some other number is mutually reachable. -/
theorem one_lt_length_component_iff (hwithin : Within before size) {i : Nat} :
    1 < (component before size i).length ↔ ∃ j, j ≠ i ∧ Mutual before i j := by
  have hnodup : (component before size i).Nodup := List.nodup_range.filter _
  constructor
  · intro h
    by_contra hnone
    push Not at hnone
    have hsubset : component before size i ⊆ [i] := by
      intro j hj
      obtain ⟨-, rfl | hij⟩ := (mem_component hwithin).1 hj
      · exact List.mem_cons_self
      · by_contra hne
        exact hnone j (by simpa using hne) hij
    have hlength := (List.subperm_of_subset hnodup hsubset).length_le
    rw [List.length_singleton] at hlength
    omega
  · rintro ⟨j, hne, hij⟩
    obtain ⟨hi, hj⟩ := hij.1.lt_size hwithin
    have hsubset : [i, j] ⊆ component before size i := by
      intro k hk
      rw [mem_component hwithin]
      rcases List.mem_pair.1 hk with rfl | rfl
      · exact ⟨hi, .inl rfl⟩
      · exact ⟨hj, .inr hij⟩
    have hpair : [i, j].Nodup := by simp [hne.symm]
    exact (List.subperm_of_subset hpair hsubset).length_le

end Component

section FirstCycle

/-- The cycle that is found is a component with a second member. -/
theorem firstCycle_some {ns members : List Nat} (h : firstCycle before size ns = some members) :
    ∃ i, members = component before size i ∧ 1 < members.length := by
  induction ns with
  | nil => cases h
  | cons i rest ih =>
    simp only [firstCycle] at h
    split at h
    case isTrue hbig =>
      cases h
      exact ⟨i, rfl, by simp at hbig; exact hbig.1⟩
    case isFalse => exact ih h

/-- Of the numbers in one component the last decides, so no component is passed over. -/
theorem firstCycle_isSome (hwithin : Within before size) {ns : List Nat} {i : Nat} (hi : i ∈ ns)
    (hbig : 1 < (component before size i).length) : (firstCycle before size ns).isSome := by
  induction ns generalizing i with
  | nil => cases hi
  | cons k rest ih =>
    simp only [firstCycle]
    split
    case isTrue => rfl
    case isFalse hpassed =>
      rcases List.mem_cons.1 hi with rfl | hi
      · obtain ⟨j, hj, hrest⟩ : ∃ j ∈ component before size i, j ∈ rest := by
          simpa [hbig] using hpassed
        exact ih hrest (by rwa [component_eq hwithin hj])
      · exact ih hi hbig

end FirstCycle

namespace Search

/-- What a search does to its state: it forgets nothing, and leaves what it enters. -/
structure Extends (s t : Search) : Prop where
  entered : s.entered ⊆ t.entered
  left : s.left ⊆ t.left
  leaves : ∀ j ∈ t.entered, j ∈ s.entered ∨ j ∈ t.left

theorem Extends.refl (s : Search) : s.Extends s where
  entered := List.Subset.refl _
  left := List.Subset.refl _
  leaves _ hj := .inl hj

theorem Extends.trans {s t u : Search} (h : s.Extends t) (h' : t.Extends u) : s.Extends u where
  entered := List.Subset.trans h.entered h'.entered
  left := List.Subset.trans h.left h'.left
  leaves j hj := by
    rcases h'.leaves j hj with hj | hj
    · exact (h.leaves j hj).imp_right fun hleft => h'.left hleft
    · exact .inr hj

theorem Extends.foldl {f : Search → Nat → Search} (hf : ∀ (s : Search) (i : Nat), s.Extends (f s i))
    (s : Search) (is : List Nat) : s.Extends (is.foldl f s) := by
  induction is generalizing s with
  | nil => exact .refl s
  | cons i is ih => exact (hf s i).trans (ih (f s i))

theorem extends_visit (before : Nat → Nat → Bool) (size depth : Nat) (s : Search) (i : Nat) :
    s.Extends (visit before size depth s i) := by
  induction depth generalizing s i with
  | zero => exact .refl s
  | succ depth ih =>
    simp only [visit]
    split
    case isTrue => exact .refl s
    case isFalse hnew =>
      have hfold := Extends.foldl ih { s with entered := i :: s.entered }
        ((List.range size).filter (before i)).reverse
      refine ⟨fun j hj => hfold.entered (List.mem_cons_of_mem i hj),
        fun j hj => List.mem_cons_of_mem i (hfold.left hj), fun j hj => ?_⟩
      rcases hfold.leaves j hj with hmem | hleft
      · rcases List.mem_cons.1 hmem with rfl | hmem
        · exact .inr List.mem_cons_self
        · exact .inl hmem
      · exact .inr (List.mem_cons_of_mem i hleft)

theorem mem_entered_visit (depth : Nat) (s : Search) (i : Nat) :
    i ∈ (visit before size (depth + 1) s i).entered := by
  simp only [visit]
  split
  case isTrue h => simpa using h
  case isFalse =>
    have hfold := Extends.foldl (extends_visit before size depth)
      { s with entered := i :: s.entered } ((List.range size).filter (before i)).reverse
    exact hfold.entered List.mem_cons_self

end Search

/-- A search from every number leaves every number. -/
theorem mem_leaving {i : Nat} (hi : i < size) : i ∈ leaving before size := by
  have hfold : ∀ is : List Nat, i ∈ is → ∀ s : Search,
      i ∈ (is.foldl (Search.visit before size size) s).entered := by
    intro is
    induction is with
    | nil => intro h; cases h
    | cons k is ih =>
      intro h s
      rcases List.mem_cons.1 h with rfl | h
      · obtain ⟨depth, rfl⟩ := Nat.exists_eq_add_one_of_ne_zero (Nat.ne_zero_of_lt hi)
        exact (Search.Extends.foldl (Search.extends_visit before _ _) _ is).entered
          (Search.mem_entered_visit depth s i)
      · exact ih h _
  have hentered := hfold (List.range size) (List.mem_range.2 hi) ⟨[], []⟩
  have hextends := Search.Extends.foldl (Search.extends_visit before size size) ⟨[], []⟩
    (List.range size)
  rw [leaving, List.mem_reverse]
  exact (hextends.leaves i hentered).resolve_left List.not_mem_nil

/-- A cycle is found exactly when two different numbers are mutually reachable. -/
theorem cycle?_isSome_iff (hwithin : Within before size) :
    (cycle? before size).isSome ↔ ∃ i j, i ≠ j ∧ Mutual before i j := by
  constructor
  · intro h
    obtain ⟨members, hmembers⟩ := Option.isSome_iff_exists.1 h
    obtain ⟨i, rfl, hbig⟩ := firstCycle_some hmembers
    obtain ⟨j, hne, hij⟩ := (one_lt_length_component_iff hwithin).1 hbig
    exact ⟨i, j, hne.symm, hij⟩
  · rintro ⟨i, j, hne, hij⟩
    have hbig := (one_lt_length_component_iff hwithin).2 ⟨j, hne.symm, hij⟩
    exact firstCycle_isSome hwithin (mem_leaving (hij.1.lt_size hwithin).1) hbig

/-- Without a cycle of different numbers, and with no number before itself, no chain leads back. -/
theorem acyclic_of_cycle?_eq_none (hwithin : Within before size)
    (hirrefl : ∀ i, before i i = false) (h : cycle? before size = none) : Acyclic before := by
  intro i hi
  have hnone : ¬ ∃ i j, i ≠ j ∧ Mutual before i j := by
    rw [← cycle?_isSome_iff hwithin, h]
    exact Bool.false_ne_true
  apply hnone
  obtain ⟨j, hij, hji⟩ := Relation.TransGen.head'_iff.1 hi
  have hne : i ≠ j := by
    rintro rfl
    simp [hirrefl] at hij
  rcases Relation.reflTransGen_iff_eq_or_transGen.1 hji with heq | hji
  · exact absurd heq hne
  · exact ⟨i, j, hne, .single hij, hji⟩

end SourceGauge.Order
