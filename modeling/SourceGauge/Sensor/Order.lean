/-! Orders under a relation "comes before" on the numbers below a bound, and the cycles that rule
such orders out. -/
namespace SourceGauge.Order

/-- Takes the least number that no remaining number must precede, again and again, until there is
none. -/
def arrange (before : Nat → Nat → Bool) (remaining : List Nat) : List Nat :=
  match _h : remaining.find? fun i => !remaining.any (before · i) with
  | none => []
  | some i => i :: arrange before (remaining.erase i)
termination_by remaining.length
decreasing_by
  have hi := List.mem_of_find?_eq_some _h
  rw [List.length_erase_of_mem hi]
  have := List.length_pos_of_mem hi
  omega

/-- The numbers that a chain of at most `steps` further steps can reach from those given. -/
def reach (before : Nat → Nat → Bool) (size : Nat) : Nat → List Nat → List Nat
  | 0, starts => starts
  | steps + 1, starts =>
    reach before size steps <|
      (List.range size).filter fun j => starts.contains j || starts.any (before · j)

/-- A chain of one step or more leads from `i` to `j`. -/
def reaches (before : Nat → Nat → Bool) (size i j : Nat) : Bool :=
  (reach before size size ((List.range size).filter (before i))).contains j

/-- The numbers that lie on a common cycle with `i`, and `i` itself, in order. -/
def component (before : Nat → Nat → Bool) (size i : Nat) : List Nat :=
  (List.range size).filter fun j =>
    j = i || (reaches before size i j && reaches before size j i)

/-- The numbers that a search has entered, and those that it has left, latest first. -/
structure Search where
  entered : List Nat
  left : List Nat

/-- Searches from `i`, greatest successors first, no deeper than `depth`. -/
def Search.visit (before : Nat → Nat → Bool) (size : Nat) : Nat → Search → Nat → Search
  | 0, s, _ => s
  | depth + 1, s, i =>
    if s.entered.contains i then s
    else
      let s := { s with entered := i :: s.entered }
      let s := ((List.range size).filter (before i)).reverse.foldl (visit before size depth) s
      { s with left := i :: s.left }

/-- The order in which a search from every number in turn leaves the numbers. -/
def leaving (before : Nat → Nat → Bool) (size : Nat) : List Nat :=
  ((List.range size).foldl (Search.visit before size size) ⟨[], []⟩).left.reverse

/-- The cycle whose last number is left first. -/
def firstCycle (before : Nat → Nat → Bool) (size : Nat) : List Nat → Option (List Nat)
  | [] => none
  | i :: rest =>
    let members := component before size i
    if 1 < members.length && !members.any rest.contains then some members
    else firstCycle before size rest

/-- The members of a cycle, if there is one. -/
def cycle? (before : Nat → Nat → Bool) (size : Nat) : Option (List Nat) :=
  firstCycle before size (leaving before size)

example : arrange (fun i j => (i, j) ∈ [(2, 0), (2, 1)]) [0, 1, 2] = [2, 0, 1] := by
  decide +kernel
example : cycle? (fun i j => (i, j) ∈ [(0, 1), (1, 0), (1, 2)]) 3 = some [0, 1] := by
  decide +kernel

end SourceGauge.Order
