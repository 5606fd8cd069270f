import Mathlib
import SourceGauge.Path.Basic

/-! The order of paths. Components are ordered by their kind, and names by their characters, so
paths are in a total order in which a common front part does not count. -/
namespace SourceGauge

namespace Component

/-- The kinds of components in their order. -/
def rank : Component → Nat
  | .root => 0
  | .current => 1
  | .parent => 2
  | .name _ => 3

/-- The characters that tell components of one kind apart. -/
def label : Component → List Char
  | .name cs => cs
  | _ => []

theorem compare_eq_compareLex :
    (compare : Component → Component → Ordering) =
      compareLex (compareOn rank) (compareOn label) := by
  funext c d
  cases c with
  | name cs =>
    cases d with
    | name ds =>
      change (compare cs ds).then .eq = (compare 3 3).then (compare cs ds)
      cases compare cs ds <;> rfl
    | _ => rfl
  | _ => cases d <;> rfl

instance : Std.TransOrd Component := by
  unfold Std.TransOrd
  rw [compare_eq_compareLex]
  infer_instance

theorem eq_of_rank_of_label {c d : Component} (hrank : c.rank = d.rank)
    (hlabel : c.label = d.label) : c = d := by
  cases c <;> cases d <;> simp_all [rank, label]

instance : Std.LawfulEqOrd Component where
  eq_of_compare {c d} h := by
    rw [compare_eq_compareLex, compareLex_eq_eq] at h
    exact eq_of_rank_of_label (Std.LawfulEqOrd.eq_of_compare h.1)
      (Std.LawfulEqOrd.eq_of_compare h.2)

end Component

namespace Path
variable {p q r : Path}

theorem compare_append_left (front cs ds : List Component) :
    compare (front ++ cs) (front ++ ds) = compare cs ds := by
  induction front with
  | nil => rfl
  | cons c front ih =>
    rw [List.cons_append, List.cons_append, List.compare_cons_cons, ih,
      Std.ReflOrd.compare_self, Ordering.eq_then]

theorem le_trans (hpq : p.le q = true) (hqr : q.le r = true) : p.le r = true :=
  Std.TransOrd.isLE_trans hpq hqr

theorem le_total (p q : Path) : (p.le q || q.le p) = true := by
  rw [le, le, Std.OrientedOrd.eq_swap (a := q.components)]
  cases compare p.components q.components <;> rfl

/-- The first path stands before the second. -/
def Before (p q : Path) : Prop := compare p.components q.components = .lt

theorem before_of_le (hle : p.le q = true) (hne : p.components ≠ q.components) : p.Before q := by
  rw [le] at hle
  cases hcompare : compare p.components q.components with
  | lt => exact hcompare
  | eq => exact (hne (Std.LawfulEqOrd.eq_of_compare hcompare)).elim
  | gt =>
    rw [hcompare] at hle
    cases hle

theorem not_before_self (p : Path) : ¬ p.Before p := by
  rw [Before, Std.ReflOrd.compare_self]
  nofun

theorem Before.not_before (h : p.Before q) : ¬ q.Before p := by
  rw [Before, Std.OrientedOrd.eq_swap, h]
  nofun

section Sorting
variable {α : Type} (key : α → Path) {xs ys : List α}

/-- Sorted by paths that differ, each stands before all that follow it. -/
theorem pairwise_before_mergeSort
    (hdiffer : xs.Pairwise fun x y => (key x).components ≠ (key y).components) :
    (xs.mergeSort fun x y => (key x).le (key y)).Pairwise fun x y => (key x).Before (key y) := by
  have hperm := List.mergeSort_perm xs fun x y => (key x).le (key y)
  have hsorted := List.pairwise_mergeSort (fun x y z => le_trans (p := key x) (q := key y))
    (fun x y => le_total (key x) (key y)) xs
  exact hsorted.imp₂ (fun _ _ => before_of_le) ((hperm.pairwise_iff Ne.symm).2 hdiffer)

/-- Paths that differ are in the same order after sorting, whatever their order was before. -/
theorem mergeSort_eq_of_perm (hperm : xs.Perm ys)
    (hdiffer : xs.Pairwise fun x y => (key x).components ≠ (key y).components) :
    (xs.mergeSort fun x y => (key x).le (key y)) =
      ys.mergeSort fun x y => (key x).le (key y) := by
  have : Std.Irrefl fun x y => (key x).Before (key y) := ⟨fun x => not_before_self (key x)⟩
  have : Std.Antisymm fun x y => (key x).Before (key y) :=
    ⟨fun x y hxy hyx => (hxy.not_before hyx).elim⟩
  have hsorted := pairwise_before_mergeSort key hdiffer
  have hsorted' := pairwise_before_mergeSort key ((hperm.pairwise_iff Ne.symm).1 hdiffer)
  refine hsorted.eq_of_mem_iff hsorted' fun x => ?_
  rw [List.mem_mergeSort, List.mem_mergeSort, hperm.mem_iff]

end Sorting

end Path
end SourceGauge
