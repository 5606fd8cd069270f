import Mathlib.Data.List.Count
import Mathlib.Data.List.Sort
import SourceGauge.Sensor.Countdown
import SourceGauge.Sensor.Order

/-! Counting down places the same numbers as peeling off the least free number. At every moment
each number waits for as many numbers as must precede it and are not placed, and the ready numbers
are the free ones. -/
namespace SourceGauge.Order

namespace Countdown

theorem mem_insert {j k : Nat} {ns : List Nat} : k ∈ insert j ns ↔ k = j ∨ k ∈ ns := by
  induction ns with
  | nil => simp [insert]
  | cons i rest ih =>
    simp only [insert]
    split
    · simp
    · split
      case isTrue heq => simp [heq]
      case isFalse => simp only [List.mem_cons, ih]; tauto

theorem sorted_insert (j : Nat) {ns : List Nat} (h : ns.Pairwise (· < ·)) :
    (insert j ns).Pairwise (· < ·) := by
  induction ns with
  | nil => simp [insert]
  | cons i rest ih =>
    obtain ⟨hi, hrest⟩ := List.pairwise_cons.1 h
    simp only [insert]
    split
    case isTrue hlt =>
      refine List.pairwise_cons.2 ⟨fun k hk => ?_, h⟩
      rcases List.mem_cons.1 hk with rfl | hk
      · exact hlt
      · exact hlt.trans (hi k hk)
    case isFalse hge =>
      split
      case isTrue => exact h
      case isFalse hne =>
        refine List.pairwise_cons.2 ⟨fun k hk => ?_, ih hrest⟩
        rcases mem_insert.1 hk with rfl | hk
        · omega
        · exact hi k hk

/-- All that a release can do. -/
theorem release_cases (s : Countdown) (j : Nat) :
    (s.waiting[j]?.getD 0 = 0 ∧ s.release j = s) ∨
      (s.waiting[j]? = some 1 ∧ s.release j = ⟨s.waiting.set j 0, insert j s.ready⟩) ∨
      ∃ n, s.waiting[j]? = some (n + 2) ∧ s.release j = ⟨s.waiting.set j (n + 1), s.ready⟩ := by
  match h : s.waiting[j]? with
  | none => exact .inl ⟨rfl, by simp [release, h]⟩
  | some 0 => exact .inl ⟨rfl, by simp [release, h]⟩
  | some 1 => exact .inr (.inl ⟨rfl, by simp [release, h]⟩)
  | some (n + 2) => exact .inr (.inr ⟨n, rfl, by simp [release, h]⟩)

theorem getElem?_set_of_some {ns : List Nat} {j n : Nat} (h : ns[j]? = some n) (m k : Nat) :
    (ns.set j m)[k]? = if k = j then some m else ns[k]? := by
  obtain ⟨hj, -⟩ := List.getElem?_eq_some_iff.1 h
  by_cases hk : k = j
  · simp [hk, hj]
  · simp [hk, Ne.symm hk]

/-- A release lowers one count. -/
theorem waiting_release (s : Countdown) (j k : Nat) :
    (s.release j).waiting[k]? =
      if k = j then (s.waiting[k]?).map (· - 1) else s.waiting[k]? := by
  rcases release_cases s j with ⟨h, heq⟩ | ⟨h, heq⟩ | ⟨n, h, heq⟩
  · rw [heq]
    split
    case isTrue hk =>
      subst hk
      cases hcount : s.waiting[k]? with
      | none => rfl
      | some n => simp_all
    case isFalse => rfl
  · rw [heq, getElem?_set_of_some h]
    split
    case isTrue hk => simp [hk, h]
    case isFalse => rfl
  · rw [heq, getElem?_set_of_some h]
    split
    case isTrue hk => simp [hk, h]
    case isFalse => rfl

/-- A release makes ready the number whose count it lowers to zero. -/
theorem mem_ready_release {s : Countdown} {j k : Nat} :
    k ∈ (s.release j).ready ↔ k ∈ s.ready ∨ (k = j ∧ s.waiting[k]? = some 1) := by
  rcases release_cases s j with ⟨h, heq⟩ | ⟨h, heq⟩ | ⟨n, h, heq⟩
  · rw [heq]
    refine (or_iff_left ?_).symm
    rintro ⟨rfl, hk⟩
    simp [hk] at h
  · rw [heq, mem_insert, or_comm]
    refine or_congr_right ⟨?_, And.left⟩
    rintro rfl
    exact ⟨rfl, h⟩
  · rw [heq]
    refine (or_iff_left ?_).symm
    rintro ⟨rfl, hk⟩
    simp [hk] at h

theorem sorted_ready_release {s : Countdown} (h : s.ready.Pairwise (· < ·)) (j : Nat) :
    (s.release j).ready.Pairwise (· < ·) := by
  rcases release_cases s j with ⟨-, heq⟩ | ⟨-, heq⟩ | ⟨n, -, heq⟩
  · rwa [heq]
  · rw [heq]
    exact sorted_insert j h
  · rwa [heq]

/-- Releases of different numbers lower the count of each. -/
theorem waiting_foldl_release (s : Countdown) {js : List Nat} (h : js.Nodup) (k : Nat) :
    (js.foldl release s).waiting[k]? =
      if k ∈ js then (s.waiting[k]?).map (· - 1) else s.waiting[k]? := by
  induction js generalizing s with
  | nil => simp
  | cons j js ih =>
    obtain ⟨hj, hjs⟩ := List.nodup_cons.1 h
    rw [List.foldl_cons, ih _ hjs, waiting_release]
    by_cases hk : k = j
    · simp [hk, hj]
    · simp [hk]

theorem mem_ready_foldl_release {s : Countdown} {js : List Nat} (h : js.Nodup) {k : Nat} :
    k ∈ (js.foldl release s).ready ↔ k ∈ s.ready ∨ (k ∈ js ∧ s.waiting[k]? = some 1) := by
  induction js generalizing s with
  | nil => simp
  | cons j js ih =>
    obtain ⟨hj, hjs⟩ := List.nodup_cons.1 h
    rw [List.foldl_cons, ih hjs, mem_ready_release, waiting_release]
    by_cases hk : k = j
    · simp [hk, hj]
    · simp [hk]

theorem sorted_ready_foldl_release {s : Countdown} (h : s.ready.Pairwise (· < ·))
    (js : List Nat) : (js.foldl release s).ready.Pairwise (· < ·) := by
  induction js generalizing s with
  | nil => exact h
  | cons j js ih => exact ih (sorted_ready_release h j)

/-- The countdown stands where a number is still to be placed exactly when it remains. -/
structure Matches (before : Nat → Nat → Bool) (size : Nat) (s : Countdown)
    (remaining : List Nat) : Prop where
  sorted : remaining.Pairwise (· < ·)
  lt_size : ∀ j ∈ remaining, j < size
  /-- Each number waits for those that must precede it and remain. -/
  waiting : ∀ j < size, s.waiting[j]? = some (remaining.countP (before · j))
  /-- A number that was placed waits for nothing any more. -/
  placed : ∀ j < size, j ∉ remaining → remaining.countP (before · j) = 0
  sorted_ready : s.ready.Pairwise (· < ·)
  mem_ready : ∀ j, j ∈ s.ready ↔ j ∈ remaining ∧ remaining.countP (before · j) = 0

variable {before : Nat → Nat → Bool} {size : Nat} {s : Countdown} {remaining : List Nat}

theorem matches_start (before : Nat → Nat → Bool) (size : Nat) :
    Matches before size (start before size) (List.range size) where
  sorted := List.pairwise_lt_range
  lt_size j hj := List.mem_range.1 hj
  waiting j hj := by simp [start, hj]
  placed j hj hnot := absurd (List.mem_range.2 hj) hnot
  sorted_ready := List.pairwise_lt_range.filter _
  mem_ready j := by
    rw [start, List.mem_filter, List.mem_range]
    refine and_congr_right fun hj => ?_
    simp [hj]

/-- Placing the least ready number takes it from those that remain. -/
theorem Matches.place (h : Matches before size s remaining) {i : Nat} {rest : List Nat}
    (hready : s.ready = i :: rest) :
    Matches before size (s.place before size i rest) (remaining.erase i) := by
  have hnodup : remaining.Nodup := h.sorted.imp Nat.ne_of_lt
  obtain ⟨hi, hcount⟩ := (h.mem_ready i).1 (hready ▸ List.mem_cons_self)
  have herase : ∀ j, (remaining.erase i).countP (before · j) =
      remaining.countP (before · j) - if before i j then 1 else 0 := by
    intro j
    simp [List.countP_erase, hi]
  have hself : before i i = false := by simpa using List.countP_eq_zero.1 hcount i hi
  -- the numbers released are those below the bound that `i` must precede, each once
  have hjs : ((List.range size).filter (before i)).reverse.Nodup :=
    List.nodup_reverse.2 (List.nodup_range.filter _)
  have hmem : ∀ j, j ∈ ((List.range size).filter (before i)).reverse ↔ j < size ∧ before i j := by
    simp
  have hrest : rest.Pairwise (· < ·) ∧ ∀ j, j ∈ rest ↔ j ∈ s.ready ∧ j ≠ i := by
    obtain ⟨hlt, hrest⟩ := List.pairwise_cons.1 (hready ▸ h.sorted_ready)
    refine ⟨hrest, fun j => ⟨fun hj => ?_, fun hj => ?_⟩⟩
    · exact ⟨hready ▸ List.mem_cons_of_mem i hj, (hlt j hj).ne'⟩
    · exact (List.mem_cons.1 (hready ▸ hj.1)).resolve_left hj.2
  refine ⟨h.sorted.sublist List.erase_sublist, fun j hj => h.lt_size j (List.mem_of_mem_erase hj),
    fun j hj => ?_, fun j hj hnot => ?_, sorted_ready_foldl_release hrest.1 _, fun j => ?_⟩
  · rw [Countdown.place, waiting_foldl_release _ hjs, herase, h.waiting j hj]
    by_cases hbefore : before i j <;> simp [hj, hbefore]
  · rw [herase]
    by_cases hj' : j ∈ remaining
    · have hji : j = i := by
        by_contra hne
        exact hnot ((List.mem_erase_of_ne hne).2 hj')
      simp [hji, hcount]
    · simp [h.placed j hj hj']
  · rw [Countdown.place, mem_ready_foldl_release hjs, hmem, hrest.2, h.mem_ready,
      hnodup.mem_erase_iff, herase]
    cases hbefore : before i j with
    | false => simp; tauto
    | true =>
      have hne : j ≠ i := by
        rintro rfl
        simp [hself] at hbefore
      have hpos : 0 < remaining.countP (before · j) := List.countP_pos_iff.2 ⟨i, hi, hbefore⟩
      constructor
      · rintro (⟨⟨-, hzero⟩, -⟩ | ⟨⟨hj, -⟩, hone⟩)
        · omega
        · have hcount : remaining.countP (before · j) = 1 := by
            simpa [h.waiting j hj] using hone
          refine ⟨⟨hne, ?_⟩, by simp [hcount]⟩
          by_contra hnot
          simp [h.placed j hj hnot] at hcount
      · rintro ⟨⟨-, hj⟩, hone⟩
        have hcount : remaining.countP (before · j) = 1 := by
          simp only [if_true] at hone
          omega
        refine .inr ⟨⟨h.lt_size j hj, rfl⟩, ?_⟩
        simpa [hcount] using h.waiting j (h.lt_size j hj)

/-- The ready numbers are the free ones among those that remain. -/
theorem Matches.ready_eq (h : Matches before size s remaining) :
    s.ready = remaining.filter fun i => !remaining.any (before · i) := by
  have hsorted := h.sorted.filter fun i => !remaining.any (before · i)
  have hperm : s.ready.Perm (remaining.filter fun i => !remaining.any (before · i)) := by
    rw [List.perm_ext_iff_of_nodup (h.sorted_ready.imp Nat.ne_of_lt)
      (hsorted.imp Nat.ne_of_lt)]
    intro j
    rw [h.mem_ready, List.mem_filter]
    simp
  apply hperm.eq_of_pairwise _ h.sorted_ready hsorted
  intro i j _ _ hij hji
  omega

theorem Matches.run_eq (h : Matches before size s remaining) :
    s.run before size = arrange before remaining := by
  fun_induction arrange before remaining generalizing s with
  | case1 remaining hnone =>
    have hready : s.ready = [] := by
      rw [h.ready_eq, ← List.head?_eq_none_iff, List.head?_filter, hnone]
    unfold run
    split
    case h_1 => rfl
    case h_2 heq => simp [hready] at heq
  | case2 remaining i hi ih =>
    have hhead : s.ready.head? = some i := by rw [h.ready_eq, List.head?_filter, hi]
    obtain ⟨rest, hready⟩ := List.head?_eq_some_iff.1 hhead
    unfold run
    split
    case h_1 heq => simp [hready] at heq
    case h_2 j rest' heq =>
      obtain ⟨rfl, rfl⟩ : i = j ∧ rest = rest' := by simpa using hready.symm.trans heq
      rw [ih (h.place hready)]

end Countdown

/-- The countdown finds the arrangement of all numbers below the bound. -/
theorem countdown_eq_arrange (before : Nat → Nat → Bool) (size : Nat) :
    countdown before size = arrange before (List.range size) :=
  (Countdown.matches_start before size).run_eq

end SourceGauge.Order
