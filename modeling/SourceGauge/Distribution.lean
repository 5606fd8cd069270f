/-! Bucketed distributions. A bucket is named by its lower bound and holds a count; the buckets
stand in increasing order of their bounds. -/
namespace SourceGauge

namespace Bucket

/-- Adds `n` to the bucket at `bound`, which is opened if it is not there. -/
def addAt (bound n : Nat) : List (Nat × Nat) → List (Nat × Nat)
  | [] => [(bound, n)]
  | (b, c) :: rest =>
    if bound < b then (bound, n) :: (b, c) :: rest
    else if bound = b then (b, c + n) :: rest
    else (b, c) :: addAt bound n rest

/-- Bounds increase from bucket to bucket. -/
def Sorted (buckets : List (Nat × Nat)) : Prop := buckets.Pairwise (·.1 < ·.1)

theorem mem_addAt {bound n : Nat} {buckets : List (Nat × Nat)} {x : Nat × Nat}
    (h : x ∈ addAt bound n buckets) : x.1 = bound ∨ x ∈ buckets := by
  induction buckets with
  | nil => simp_all [addAt]
  | cons y rest ih =>
    simp only [addAt] at h
    split at h
    · rcases List.mem_cons.1 h with rfl | h
      · exact .inl rfl
      · exact .inr h
    · split at h
      · rcases List.mem_cons.1 h with rfl | h
        · exact .inl (by simp_all)
        · exact .inr (List.mem_cons_of_mem _ h)
      · rcases List.mem_cons.1 h with rfl | h
        · exact .inr List.mem_cons_self
        · exact (ih h).imp_right (List.mem_cons_of_mem _)

theorem sorted_addAt (bound n : Nat) {buckets : List (Nat × Nat)} (h : Sorted buckets) :
    Sorted (addAt bound n buckets) := by
  induction buckets with
  | nil => simp [addAt, Sorted]
  | cons y rest ih =>
    obtain ⟨hy, hrest⟩ := List.pairwise_cons.1 h
    simp only [addAt]
    split
    · refine List.pairwise_cons.2 ⟨fun x hx => ?_, h⟩
      rcases List.mem_cons.1 hx with rfl | hx
      · assumption
      · have := hy x hx; simp only at *; omega
    · split
      · exact List.pairwise_cons.2 ⟨hy, hrest⟩
      · refine List.pairwise_cons.2 ⟨fun x hx => ?_, ih hrest⟩
        rcases mem_addAt hx with hx | hx
        · simp only at *; omega
        · exact hy x hx

/-- Adds the counts of `more` bucket by bucket. -/
def addAll (buckets more : List (Nat × Nat)) : List (Nat × Nat) :=
  more.foldl (fun acc x => addAt x.1 x.2 acc) buckets

theorem sorted_addAll {buckets : List (Nat × Nat)} (h : Sorted buckets)
    (more : List (Nat × Nat)) : Sorted (addAll buckets more) := by
  induction more generalizing buckets with
  | nil => exact h
  | cons x more ih => exact ih (sorted_addAt x.1 x.2 h)

end Bucket

structure Distribution where
  buckets : List (Nat × Nat)
  sorted : Bucket.Sorted buckets
  deriving DecidableEq, Repr

namespace Distribution

@[ext] theorem ext {d e : Distribution} (h : d.buckets = e.buckets) : d = e := by
  cases d; cases e; simp_all

/-- The distribution without buckets. -/
def empty : Distribution := ⟨[], .nil⟩

def isEmpty (d : Distribution) : Bool := d.buckets.isEmpty

/-- One bucket for each limit, with nothing in it. -/
def ofLimits (limits : List Nat) : Distribution :=
  ⟨Bucket.addAll [] (limits.map (·, 0)), Bucket.sorted_addAll .nil _⟩

/-- The bound of the bucket that takes `value`: the greatest one not above it, else the first
one. Without any bucket the value opens its own. -/
def bucketFor (d : Distribution) (value : Nat) : Nat :=
  let bounds := d.buckets.map Prod.fst
  ((bounds.filter (· ≤ value)).getLast?.or bounds.head?).getD value

/-- Counts one occurrence of `value`. -/
def addValue (d : Distribution) (value : Nat) : Distribution :=
  ⟨Bucket.addAt (d.bucketFor value) 1 d.buckets, Bucket.sorted_addAt _ _ d.sorted⟩

def ofValues (limits values : List Nat) : Distribution :=
  values.foldl addValue (ofLimits limits)

/-- Every bucket of both sides, with the sum of its counts. -/
def merge (d e : Distribution) : Distribution :=
  ⟨Bucket.addAll d.buckets e.buckets, Bucket.sorted_addAll d.sorted _⟩

/-- Merges `e` into a distribution that may not have been started. -/
def mergeInto (d : Option Distribution) (e : Distribution) : Distribution :=
  match d with
  | none => e
  | some d => d.merge e

/-- The count of a bucket, zero if there is none at that bound. -/
def count (d : Distribution) (bound : Nat) : Nat := (d.buckets.lookup bound).getD 0

def total (d : Distribution) : Nat := (d.buckets.map Prod.snd).foldr (· + ·) 0

/-- The text form, as in 1=3;2=0. -/
def text (d : Distribution) : String :=
  ";".intercalate (d.buckets.map fun (bound, count) => s!"{bound}={count}")

example : (ofValues [1, 2, 4] [3, 0, 9, 2]).text = "1=1;2=2;4=1" := by cbv

end Distribution
end SourceGauge
