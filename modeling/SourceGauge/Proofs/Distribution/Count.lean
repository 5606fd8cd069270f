import Mathlib
import SourceGauge.Proofs.Distribution.Fold

/-! How many values a bucket holds. Each value lands in the bucket at the greatest limit that is not
above it, or in the first one when it is below them all, whichever values were counted before. Hence
a bucket counts the values that land in it. -/
namespace SourceGauge.Distribution

/-- The value lands at the limit `b`: no greater limit is at most the value, unless the value is
below all limits and `b` is the least of them. -/
def Lands (limits : List Nat) (value b : Nat) : Prop :=
  b ∈ limits ∧
    ((b ≤ value ∧ ∀ l ∈ limits, l ≤ value → l ≤ b) ∨
      ((∀ l ∈ limits, value < l) ∧ ∀ l ∈ limits, b ≤ l))

instance (limits : List Nat) (value b : Nat) : Decidable (Lands limits value b) := by
  unfold Lands
  infer_instance

section Lands
variable {limits others : List Nat} {value b c : Nat}

/-- A value lands at one limit only. -/
theorem Lands.unique (hb : Lands limits value b) (hc : Lands limits value c) : b = c := by
  obtain ⟨hbmem, ⟨hble, hbmax⟩ | ⟨hblow, hbmin⟩⟩ := hb <;>
    obtain ⟨hcmem, ⟨hcle, hcmax⟩ | ⟨hclow, hcmin⟩⟩ := hc
  · exact Nat.le_antisymm (hcmax b hbmem hble) (hbmax c hcmem hcle)
  · exact absurd (hclow b hbmem) (Nat.not_lt.2 hble)
  · exact absurd (hblow c hcmem) (Nat.not_lt.2 hcle)
  · exact Nat.le_antisymm (hbmin c hcmem) (hcmin b hbmem)

/-- Neither the order of the limits nor their number matters. -/
theorem lands_congr (h : ∀ l, l ∈ limits ↔ l ∈ others) :
    Lands limits value b ↔ Lands others value b := by
  simp only [Lands, h]

end Lands

/-- The bucket that takes a value is the one where it lands. -/
theorem lands_bucketFor {d : Distribution} (h : d.bounds ≠ []) (value : Nat) :
    Lands d.bounds value (d.bucketFor value) := by
  refine ⟨bucketFor_mem_bounds h value, ?_⟩
  have hsorted := d.sorted_bounds
  have hbucket : d.bucketFor value =
      ((d.bounds.filter (· ≤ value)).getLast?.or d.bounds.head?).getD value := rfl
  cases hlast : (d.bounds.filter (· ≤ value)).getLast? with
  | some b =>
    rw [hlast, Option.some_or, Option.getD_some] at hbucket
    rw [hbucket]
    -- the bounds that are at most the value are in order, so the last of them is the greatest
    obtain ⟨front, hfilter⟩ := List.getLast?_eq_some_iff.1 hlast
    have hmem (l : Nat) : l ∈ d.bounds ∧ l ≤ value ↔ l ∈ front ∨ l = b := by
      rw [← List.mem_singleton, ← List.mem_append, ← hfilter, List.mem_filter, decide_eq_true_iff]
    have hfront : ∀ l ∈ front, l < b := by
      have hordered : (front ++ [b]).Pairwise (· < ·) := hfilter ▸ hsorted.filter _
      exact fun l hl => (List.pairwise_append.1 hordered).2.2 l hl b List.mem_cons_self
    refine .inl ⟨((hmem b).2 (.inr rfl)).2, fun l hl hle => ?_⟩
    rcases (hmem l).1 ⟨hl, hle⟩ with hl | rfl
    · exact (hfront l hl).le
    · exact le_rfl
  | none =>
    obtain ⟨b, rest, hb⟩ := List.exists_cons_of_ne_nil h
    rw [hlast, hb, Option.none_or, List.head?_cons, Option.getD_some] at hbucket
    rw [hbucket]
    rw [hb] at hlast hsorted ⊢
    refine .inr ⟨fun l hl => ?_, fun l hl => ?_⟩
    · simpa using List.filter_eq_nil_iff.1 (List.getLast?_eq_none_iff.1 hlast) l hl
    · rcases List.mem_cons.1 hl with rfl | hl
      · exact le_rfl
      · exact ((List.pairwise_cons.1 hsorted).1 l hl).le

theorem bucketFor_eq_iff {d : Distribution} (h : d.bounds ≠ []) {value b : Nat} :
    d.bucketFor value = b ↔ Lands d.bounds value b :=
  ⟨fun heq => heq ▸ lands_bucketFor h value, (lands_bucketFor h value).unique⟩

theorem count_addValue (d : Distribution) (value b : Nat) :
    (d.addValue value).count b = d.count b + if d.bucketFor value = b then 1 else 0 := by
  simp only [count, lookup_addValue, eq_comm (a := b)]
  split <;> cases d.buckets.lookup b <;> simp

theorem count_ofLimits (limits : List Nat) (b : Nat) : (ofLimits limits).count b = 0 := by
  rw [count, lookup_ofLimits]
  split <;> rfl

theorem mem_bounds_ofValues {limits : List Nat} (h : limits ≠ []) (values : List Nat) {b : Nat} :
    b ∈ (ofValues limits values).bounds ↔ b ∈ limits := by
  rw [bounds_ofValues h, mem_bounds_iff, lookup_ofLimits]
  split <;> simp_all

/-- A bucket holds as many values as land in it. -/
theorem count_ofValues {limits : List Nat} (h : limits ≠ []) (values : List Nat) (b : Nat) :
    (ofValues limits values).count b = values.countP (Lands limits · b) := by
  induction values using List.reverseRecOn with
  | nil => exact count_ofLimits limits b
  | append_singleton values v ih =>
    have hbounds : (ofValues limits values).bounds ≠ [] := by
      rw [bounds_ofValues h]
      exact bounds_ofLimits_ne_nil h
    have hlands : (ofValues limits values).bucketFor v = b ↔ Lands limits v b :=
      (bucketFor_eq_iff hbounds).trans (lands_congr fun _ => mem_bounds_ofValues h values)
    rw [ofValues_concat, count_addValue, ih, List.countP_append, List.countP_singleton]
    simp only [hlands, decide_eq_true_iff]

/-- The distribution of some values over limits in any order. It has one bucket for each limit, and
the bucket counts the values that land there. So the order of the values does not matter, and the
total is their number. -/
theorem ofValues_buckets {limits : List Nat} (h : limits ≠ []) (values : List Nat) :
    (ofValues limits values).bounds.Pairwise (· < ·) ∧
      (∀ b, b ∈ (ofValues limits values).bounds ↔ b ∈ limits) ∧
      (∀ b, (ofValues limits values).count b = values.countP (Lands limits · b)) ∧
      (∀ others : List Nat, others.Perm values → ofValues limits others = ofValues limits values) ∧
      (ofValues limits values).total = values.length :=
  ⟨sorted_bounds _, fun _ => mem_bounds_ofValues h values, count_ofValues h values,
    fun _ => ofValues_perm h, total_ofValues limits values⟩

/-- Limits out of order and repeated, and values below, at, between and above them. -/
theorem ofValues_buckets_repeated :
    let limits := [6, 2, 6, 4]
    let values := [9, 0, 4, 1, 5, 2, 6]
    limits ≠ [] ∧ (∀ b, b ∈ (ofValues limits values).bounds ↔ b ∈ limits) ∧
      (ofValues limits values).count 2 = 3 ∧ (ofValues limits values).count 4 = 2 ∧
      (ofValues limits values).count 6 = 2 ∧ (ofValues limits values).total = 7 := by
  intro limits values
  have hlimits : limits ≠ [] := by decide
  obtain ⟨-, hbounds, hcount, -, htotal⟩ := ofValues_buckets hlimits values
  exact ⟨hlimits, hbounds, (hcount 2).trans (by decide), (hcount 4).trans (by decide),
    (hcount 6).trans (by decide), htotal⟩

end SourceGauge.Distribution
