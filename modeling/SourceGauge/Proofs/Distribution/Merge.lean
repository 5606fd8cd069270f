import Mathlib.Data.List.Induction
import Mathlib.Data.List.Sort
import SourceGauge.Distribution

/-! Distributions bucket by bucket. Two distributions are equal when every bound finds the same
count in both, and merging adds what a bound finds on either side. Hence the distribution of some
values merged with that of further values is the distribution of all of them. -/
namespace SourceGauge

namespace Bucket

theorem Sorted.nodup {buckets : List (Nat × Nat)} (h : Sorted buckets) : buckets.Nodup := by
  apply List.Pairwise.imp _ h
  intro x y hxy heq
  subst heq
  exact Nat.lt_irrefl _ hxy

theorem lookup_cons (x : Nat × Nat) (rest : List (Nat × Nat)) (b : Nat) :
    (x :: rest).lookup b = if b = x.1 then some x.2 else rest.lookup b := by
  obtain ⟨bound, count⟩ := x
  by_cases hb : b = bound
  · subst hb; simp
  · rw [if_neg hb, List.lookup_cons, beq_false_of_ne hb]

/-- A bound below the first bucket finds nothing. -/
theorem lookup_eq_none_of_lt {buckets : List (Nat × Nat)} {b : Nat}
    (h : ∀ x ∈ buckets, b < x.1) : buckets.lookup b = none := by
  rw [List.lookup_eq_none_iff]
  intro x hx
  have := h x hx
  simp only [bne_iff_ne, ne_eq]
  omega

theorem lookup_eq_some_iff_mem {buckets : List (Nat × Nat)} (h : Sorted buckets) {b c : Nat} :
    buckets.lookup b = some c ↔ (b, c) ∈ buckets := by
  induction buckets with
  | nil => simp
  | cons x rest ih =>
    obtain ⟨hx, hrest⟩ := List.pairwise_cons.1 h
    rw [lookup_cons, List.mem_cons, Prod.ext_iff]
    split
    case isTrue hb =>
      have hnot : (b, c) ∉ rest := by
        intro hmem
        have := hx _ hmem
        simp only at this
        omega
      subst hb
      simp [hnot, eq_comm]
    case isFalse hb => simp [hb, ih hrest]

/-- Sorted buckets are determined by what each bound finds. -/
theorem eq_of_lookup_eq {xs ys : List (Nat × Nat)} (hx : Sorted xs) (hy : Sorted ys)
    (h : ∀ b, xs.lookup b = ys.lookup b) : xs = ys := by
  have hperm : xs.Perm ys := by
    rw [List.perm_ext_iff_of_nodup hx.nodup hy.nodup]
    rintro ⟨b, c⟩
    rw [← lookup_eq_some_iff_mem hx, ← lookup_eq_some_iff_mem hy, h b]
  apply hperm.eq_of_pairwise _ hx hy
  intro x y _ _ hxy hyx
  omega

theorem lookup_addAt {buckets : List (Nat × Nat)} (h : Sorted buckets) (k n b : Nat) :
    (addAt k n buckets).lookup b =
      (buckets.lookup b).merge (· + ·) (if b = k then some n else none) := by
  induction buckets with
  | nil => simp [addAt]
  | cons x rest ih =>
    obtain ⟨hx, hrest⟩ := List.pairwise_cons.1 h
    simp only [addAt]
    split
    case isTrue hlt =>
      have hnone : (x :: rest).lookup k = none := by
        apply lookup_eq_none_of_lt
        rintro y (_ | ⟨_, hy⟩)
        · exact hlt
        · exact hlt.trans (hx y hy)
      rw [lookup_cons]
      split
      case isTrue hb => simp [hb, hnone]
      case isFalse => simp
    case isFalse =>
      split
      case isTrue heq =>
        rw [lookup_cons, lookup_cons, heq]
        split <;> simp
      case isFalse hne =>
        rw [lookup_cons, lookup_cons, ih hrest]
        split
        case isTrue hb => simp [hb, Ne.symm hne]
        case isFalse => rfl

theorem lookup_addAll {xs ys : List (Nat × Nat)} (hx : Sorted xs) (hy : Sorted ys) (b : Nat) :
    (addAll xs ys).lookup b = (xs.lookup b).merge (· + ·) (ys.lookup b) := by
  induction ys generalizing xs with
  | nil => simp [addAll]
  | cons y rest ih =>
    obtain ⟨hlt, hrest⟩ := List.pairwise_cons.1 hy
    change (addAll (addAt y.1 y.2 xs) rest).lookup b = _
    rw [ih (sorted_addAt _ _ hx) hrest, lookup_addAt hx, lookup_cons]
    split
    case isTrue hb =>
      subst hb
      simp [lookup_eq_none_of_lt hlt]
    case isFalse => simp

end Bucket

namespace Distribution

theorem eq_of_lookup_eq {d e : Distribution}
    (h : ∀ b, d.buckets.lookup b = e.buckets.lookup b) : d = e :=
  ext (Bucket.eq_of_lookup_eq d.sorted e.sorted h)

theorem lookup_merge (d e : Distribution) (b : Nat) :
    (d.merge e).buckets.lookup b =
      (d.buckets.lookup b).merge (· + ·) (e.buckets.lookup b) :=
  Bucket.lookup_addAll d.sorted e.sorted b

theorem lookup_addValue (d : Distribution) (v b : Nat) :
    (d.addValue v).buckets.lookup b =
      (d.buckets.lookup b).merge (· + ·) (if b = d.bucketFor v then some 1 else none) :=
  Bucket.lookup_addAt d.sorted _ _ b

theorem merge_comm (d e : Distribution) : d.merge e = e.merge d := by
  apply eq_of_lookup_eq
  intro b
  rw [lookup_merge, lookup_merge]
  exact Std.Commutative.comm _ _

theorem merge_assoc (d e f : Distribution) : (d.merge e).merge f = d.merge (e.merge f) := by
  apply eq_of_lookup_eq
  intro b
  simp only [lookup_merge]
  exact Std.Associative.assoc _ _ _

/-- The bounds of the buckets, in order. -/
def bounds (d : Distribution) : List Nat := d.buckets.map Prod.fst

theorem mem_bounds_iff {d : Distribution} {b : Nat} :
    b ∈ d.bounds ↔ (d.buckets.lookup b).isSome := by
  simp [bounds, List.lookup_isSome_iff]

theorem sorted_bounds (d : Distribution) : d.bounds.Pairwise (· < ·) :=
  List.pairwise_map.2 d.sorted

theorem bounds_eq_iff {d e : Distribution} :
    d.bounds = e.bounds ↔ ∀ b, b ∈ d.bounds ↔ b ∈ e.bounds := by
  constructor
  · intro h b
    rw [h]
  · intro h
    have hperm := (List.perm_ext_iff_of_nodup d.sorted_bounds.nodup e.sorted_bounds.nodup).2 h
    apply hperm.eq_of_pairwise _ d.sorted_bounds e.sorted_bounds
    intro x y _ _ hxy hyx
    omega

/-- Which bucket takes a value depends on the bounds only. -/
theorem bucketFor_congr {d e : Distribution} (h : d.bounds = e.bounds) (v : Nat) :
    d.bucketFor v = e.bucketFor v := by
  simp only [bounds] at h
  simp only [bucketFor, h]

/-- Unless there are no buckets at all, a value goes into one that is there. -/
theorem bucketFor_mem_bounds {d : Distribution} (h : d.bounds ≠ []) (v : Nat) :
    d.bucketFor v ∈ d.bounds := by
  change ((d.bounds.filter (· ≤ v)).getLast?.or d.bounds.head?).getD v ∈ d.bounds
  cases hlast : (d.bounds.filter (· ≤ v)).getLast? with
  | some b => exact (List.mem_filter.1 (List.mem_of_getLast? hlast)).1
  | none =>
    obtain ⟨b, rest, hb⟩ := List.exists_cons_of_ne_nil h
    simp [hb]

theorem bounds_addValue {d : Distribution} (h : d.bounds ≠ []) (v : Nat) :
    (d.addValue v).bounds = d.bounds := by
  rw [bounds_eq_iff]
  intro b
  rw [mem_bounds_iff, mem_bounds_iff, lookup_addValue, Option.isSome_merge]
  split
  case isTrue hb =>
    have := mem_bounds_iff.1 (bucketFor_mem_bounds h v)
    simp [hb, this]
  case isFalse => simp

theorem bounds_merge {d e : Distribution} (h : d.bounds = e.bounds) :
    (d.merge e).bounds = d.bounds := by
  rw [bounds_eq_iff]
  intro b
  rw [mem_bounds_iff, lookup_merge, Option.isSome_merge, Bool.or_eq_true, ← mem_bounds_iff,
    ← mem_bounds_iff, h, or_self]

theorem lookup_ofLimits (limits : List Nat) (b : Nat) :
    (ofLimits limits).buckets.lookup b = if b ∈ limits then some 0 else none := by
  have general : ∀ (acc : List (Nat × Nat)), Bucket.Sorted acc →
      (Bucket.addAll acc (limits.map (·, 0))).lookup b =
        (acc.lookup b).merge (· + ·) (if b ∈ limits then some 0 else none) := by
    induction limits with
    | nil => simp [Bucket.addAll]
    | cons l rest ih =>
      intro acc hacc
      change (Bucket.addAll (Bucket.addAt l 0 acc) (rest.map (·, 0))).lookup b = _
      rw [ih _ (Bucket.sorted_addAt _ _ hacc), Bucket.lookup_addAt hacc]
      by_cases hl : b = l
      · subst hl
        cases acc.lookup b <;> by_cases hr : b ∈ rest <;> simp [hr]
      · simp [hl]
  simpa [ofLimits] using general [] .nil

theorem bounds_ofLimits_ne_nil {limits : List Nat} (h : limits ≠ []) :
    (ofLimits limits).bounds ≠ [] := by
  obtain ⟨l, rest, rfl⟩ := List.exists_cons_of_ne_nil h
  apply List.ne_nil_of_mem (a := l)
  simp [mem_bounds_iff, lookup_ofLimits]

/-- Empty buckets at the bounds that are there add nothing. -/
theorem merge_ofLimits {d : Distribution} {limits : List Nat}
    (h : d.bounds = (ofLimits limits).bounds) : d.merge (ofLimits limits) = d := by
  apply eq_of_lookup_eq
  intro b
  have hb : b ∈ d.bounds ↔ b ∈ (ofLimits limits).bounds := by rw [h]
  rw [mem_bounds_iff, mem_bounds_iff, lookup_ofLimits] at hb
  rw [lookup_merge, lookup_ofLimits]
  cases hd : d.buckets.lookup b with
  | none => simp_all
  | some c => split <;> simp

theorem merge_addValue {d e : Distribution} (h : d.bounds = e.bounds) (v : Nat) :
    (d.merge e).addValue v = d.merge (e.addValue v) := by
  have hbucket : (d.merge e).bucketFor v = e.bucketFor v :=
    bucketFor_congr ((bounds_merge h).trans h) v
  apply eq_of_lookup_eq
  intro b
  rw [lookup_addValue, lookup_merge, lookup_merge, lookup_addValue, hbucket]
  exact Std.Associative.assoc _ _ _

theorem ofValues_concat (limits values : List Nat) (v : Nat) :
    ofValues limits (values ++ [v]) = (ofValues limits values).addValue v := by
  simp [ofValues]

theorem bounds_ofValues {limits : List Nat} (h : limits ≠ []) (values : List Nat) :
    (ofValues limits values).bounds = (ofLimits limits).bounds := by
  induction values using List.reverseRecOn with
  | nil => rfl
  | append_singleton values v ih =>
    rw [ofValues_concat, bounds_addValue _ v, ih]
    rw [ih]
    exact bounds_ofLimits_ne_nil h

/-- Counting values in one go or in two parts gives the same distribution. -/
theorem ofValues_append {limits : List Nat} (h : limits ≠ []) (xs ys : List Nat) :
    ofValues limits (xs ++ ys) = (ofValues limits xs).merge (ofValues limits ys) := by
  induction ys using List.reverseRecOn with
  | nil => rw [List.append_nil]; exact (merge_ofLimits (bounds_ofValues h xs)).symm
  | append_singleton ys y ih =>
    have hbounds : (ofValues limits xs).bounds = (ofValues limits ys).bounds := by
      rw [bounds_ofValues h, bounds_ofValues h]
    rw [← List.append_assoc, ofValues_concat, ih, merge_addValue hbounds, ofValues_concat]

/-- The order of the values does not matter. -/
theorem ofValues_perm {limits : List Nat} (h : limits ≠ []) {xs ys : List Nat}
    (hperm : xs.Perm ys) : ofValues limits xs = ofValues limits ys := by
  induction hperm with
  | nil => rfl
  | @cons x xs ys _ ih =>
    change ofValues limits ([x] ++ xs) = ofValues limits ([x] ++ ys)
    rw [ofValues_append h, ofValues_append h, ih]
  | swap x y rest =>
    change ofValues limits ([y] ++ [x] ++ rest) = ofValues limits ([x] ++ [y] ++ rest)
    rw [ofValues_append h, ofValues_append h [y], merge_comm (ofValues limits [y]),
      ← ofValues_append h [x], ← ofValues_append h]
  | trans _ _ ihxy ihyz => exact ihxy.trans ihyz

end Distribution
end SourceGauge
