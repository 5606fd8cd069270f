/-! Ordering the numbers below a bound by counting down: each number waits for those that come
before it, and the least of those that wait for none is placed next. -/
namespace SourceGauge.Order

/-- What a countdown keeps: for each number how many numbers before it are not placed yet, and the
numbers that wait for none and are not placed themselves, in order. -/
structure Countdown where
  waiting : List Nat
  ready : List Nat

namespace Countdown

/-- The countdown with nothing placed. -/
def start (before : Nat → Nat → Bool) (size : Nat) : Countdown :=
  let waiting := (List.range size).map fun j => (List.range size).countP (before · j)
  ⟨waiting, (List.range size).filter fun j => waiting[j]? = some 0⟩

/-- Puts a number into an increasing list, unless it is there. -/
def insert (j : Nat) : List Nat → List Nat
  | [] => [j]
  | i :: rest =>
    if j < i then j :: i :: rest
    else if j = i then i :: rest
    else i :: insert j rest

/-- One number fewer is left before `j`; with the last one gone, `j` is ready. -/
def release (s : Countdown) (j : Nat) : Countdown :=
  match s.waiting[j]? with
  | some 1 => ⟨s.waiting.set j 0, insert j s.ready⟩
  | some (n + 2) => { s with waiting := s.waiting.set j (n + 1) }
  | _ => s

/-- What is left after `i` has been placed, with the other ready numbers given. -/
def place (before : Nat → Nat → Bool) (size : Nat) (s : Countdown) (i : Nat) (ready : List Nat) :
    Countdown :=
  ((List.range size).filter (before i)).reverse.foldl release { s with ready }

/-- Falls with every number placed. -/
def weight (s : Countdown) : Nat := s.waiting.foldr (· + ·) 0 + s.ready.length

theorem foldr_add_set {ns : List Nat} {j n : Nat} (h : ns[j]? = some n) (m : Nat) :
    (ns.set j m).foldr (· + ·) 0 + n = ns.foldr (· + ·) 0 + m := by
  induction ns generalizing j with
  | nil => simp at h
  | cons k ns ih =>
    cases j with
    | zero => simp at h; subst h; simp; omega
    | succ j =>
      have := ih (by simpa using h)
      simp only [List.set_cons_succ, List.foldr_cons]
      omega

theorem length_insert_le (j : Nat) (ns : List Nat) : (insert j ns).length ≤ ns.length + 1 := by
  induction ns with
  | nil => simp [insert]
  | cons i rest ih => simp only [insert]; split <;> (try split) <;> simp_all

theorem weight_release_le (s : Countdown) (j : Nat) : (s.release j).weight ≤ s.weight := by
  unfold release
  split
  · next h =>
    have hsum := foldr_add_set h 0
    have hlength := length_insert_le j s.ready
    simp only [weight]
    omega
  · next n h =>
    have hsum := foldr_add_set h (n + 1)
    simp only [weight]
    omega
  · exact Nat.le_refl _

theorem weight_foldl_release_le (s : Countdown) (js : List Nat) :
    (js.foldl release s).weight ≤ s.weight := by
  induction js generalizing s with
  | nil => exact Nat.le_refl _
  | cons j js ih => exact Nat.le_trans (ih _) (weight_release_le s j)

/-- Places the least ready number, again and again, until none is ready. -/
def run (before : Nat → Nat → Bool) (size : Nat) (s : Countdown) : List Nat :=
  match _h : s.ready with
  | [] => []
  | i :: rest => i :: run before size (s.place before size i rest)
termination_by s.weight
decreasing_by
  refine Nat.lt_of_le_of_lt (weight_foldl_release_le _ _) ?_
  simp only [weight, _h, List.length_cons]
  omega

end Countdown

/-- The numbers below `size` in order, found by counting down. -/
def countdown (before : Nat → Nat → Bool) (size : Nat) : List Nat :=
  (Countdown.start before size).run before size

example : countdown (fun i j => (i, j) ∈ [(2, 0), (2, 1)]) 3 = [2, 0, 1] := by decide +kernel

end SourceGauge.Order
