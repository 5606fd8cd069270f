import Mathlib
import SourceGauge.Proofs.Distribution.Merge

/-! Merging any number of distributions. Merging adds totals and unites bounds, and the empty
distribution leaves the other side as it is. Distributions over the same limits merge, in whatever
order, to the distribution of all their values. -/
namespace SourceGauge

namespace Bucket

theorem sum_addAt (k n : Nat) (buckets : List (Nat × Nat)) :
    ((addAt k n buckets).map Prod.snd).sum = (buckets.map Prod.snd).sum + n := by
  induction buckets with
  | nil => simp [addAt]
  | cons x rest ih =>
    simp only [addAt]
    split
    · simp only [List.map_cons, List.sum_cons]; omega
    · split
      · simp only [List.map_cons, List.sum_cons]; omega
      · simp only [List.map_cons, List.sum_cons, ih]; omega

theorem sum_addAll (buckets more : List (Nat × Nat)) :
    ((addAll buckets more).map Prod.snd).sum =
      (buckets.map Prod.snd).sum + (more.map Prod.snd).sum := by
  induction more generalizing buckets with
  | nil => simp [addAll]
  | cons x more ih =>
    change ((addAll (addAt x.1 x.2 buckets) more).map Prod.snd).sum = _
    rw [ih, sum_addAt, List.map_cons, List.sum_cons, Nat.add_assoc]

end Bucket

namespace Distribution

theorem total_merge (d e : Distribution) : (d.merge e).total = d.total + e.total :=
  Bucket.sum_addAll d.buckets e.buckets

theorem total_addValue (d : Distribution) (v : Nat) : (d.addValue v).total = d.total + 1 :=
  Bucket.sum_addAt (d.bucketFor v) 1 d.buckets

theorem total_ofLimits (limits : List Nat) : (ofLimits limits).total = 0 := by
  apply (Bucket.sum_addAll [] (limits.map (·, 0))).trans
  simp [Function.comp_def]

/-- Every value is counted once, whatever the limits. -/
theorem total_ofValues (limits values : List Nat) :
    (ofValues limits values).total = values.length := by
  induction values using List.reverseRecOn with
  | nil => exact total_ofLimits limits
  | append_singleton values v ih =>
    rw [ofValues_concat, total_addValue, ih, List.length_append, List.length_singleton]

theorem mem_bounds_merge {d e : Distribution} {b : Nat} :
    b ∈ (d.merge e).bounds ↔ b ∈ d.bounds ∨ b ∈ e.bounds := by
  simp only [mem_bounds_iff, lookup_merge, Option.isSome_merge, Bool.or_eq_true]

theorem merge_empty (d : Distribution) : d.merge empty = d := rfl

theorem empty_merge (d : Distribution) : empty.merge d = d := by
  rw [merge_comm, merge_empty]

/-- Merges distributions in their order, beginning with none at all. -/
def mergeAll (ds : List Distribution) : Option Distribution :=
  ds.foldl (fun merged d => some (mergeInto merged d)) none

/-- The order in which distributions are merged does not matter, whatever their buckets. -/
theorem mergeAll_perm {ds es : List Distribution} (h : ds.Perm es) : mergeAll ds = mergeAll es := by
  apply h.foldl_eq' _
  intro d _ e _ merged
  cases merged with
  | none => simp only [mergeInto, merge_comm d e]
  | some m => simp only [mergeInto, merge_assoc, merge_comm d e]

/-- Merging on into the distribution of some values. -/
theorem foldl_mergeInto_ofValues {limits : List Nat} (h : limits ≠ []) (values : List Nat)
    (parts : List (List Nat)) :
    (parts.map (ofValues limits)).foldl (fun merged d => some (mergeInto merged d))
      (some (ofValues limits values)) = some (ofValues limits (values ++ parts.flatten)) := by
  induction parts generalizing values with
  | nil => simp
  | cons part parts ih =>
    rw [List.map_cons, List.foldl_cons, mergeInto, ← ofValues_append h, ih, List.flatten_cons,
      List.append_assoc]

theorem mergeAll_ofValues {limits : List Nat} (h : limits ≠ []) {parts : List (List Nat)}
    (hparts : parts ≠ []) :
    mergeAll (parts.map (ofValues limits)) = some (ofValues limits parts.flatten) := by
  obtain ⟨part, rest, rfl⟩ := List.exists_cons_of_ne_nil hparts
  exact foldl_mergeInto_ofValues h part rest

/-- The laws of merging, and what they come to for parts that share their limits: merged in any
order, the parts give the distribution of all values in them. -/
theorem merge_laws {limits : List Nat} (h : limits ≠ []) :
    (∀ d e : Distribution, d.merge e = e.merge d) ∧
      (∀ d e f : Distribution, (d.merge e).merge f = d.merge (e.merge f)) ∧
      (∀ d : Distribution, d.merge empty = d ∧ empty.merge d = d) ∧
      (∀ (d e : Distribution) (b : Nat), b ∈ (d.merge e).bounds ↔ b ∈ d.bounds ∨ b ∈ e.bounds) ∧
      (∀ d e : Distribution, (d.merge e).total = d.total + e.total) ∧
      (∀ xs ys : List Nat,
        ofValues limits (xs ++ ys) = (ofValues limits xs).merge (ofValues limits ys)) ∧
      ∀ parts : List (List Nat), parts ≠ [] →
        mergeAll (parts.map (ofValues limits)) = some (ofValues limits parts.flatten) ∧
          ∀ others : List Distribution, others.Perm (parts.map (ofValues limits)) →
            mergeAll others = mergeAll (parts.map (ofValues limits)) := by
  refine ⟨merge_comm, merge_assoc, fun d => ⟨merge_empty d, empty_merge d⟩,
    fun d e b => mem_bounds_merge, total_merge, ofValues_append h, ?_⟩
  intro parts hparts
  exact ⟨mergeAll_ofValues h hparts, fun others hperm => mergeAll_perm hperm⟩

/-- Three parts over limits that are out of order and repeat. -/
theorem merge_laws_three_parts :
    let limits := [4, 1, 4]
    let parts := [[0, 9], [], [3]]
    limits ≠ [] ∧ parts ≠ [] ∧
      (mergeAll (parts.reverse.map (ofValues limits))).map text = some "1=2;4=1" := by
  intro limits parts
  have hlimits : limits ≠ [] := by decide
  have hparts : parts ≠ [] := by decide
  obtain ⟨-, -, -, -, -, -, hall⟩ := merge_laws hlimits
  refine ⟨hlimits, hparts, ?_⟩
  rw [(hall parts hparts).2 _ ((List.reverse_perm parts).map _), (hall parts hparts).1]
  cbv

end Distribution
end SourceGauge
