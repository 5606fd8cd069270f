import SourceGauge.Path.Basic

/-! What is left of a path below another one. Separators and points at the ends of the rest go,
and its inner spelling stays. -/
namespace SourceGauge.Path

/-- The piece stands for nothing. -/
def isIdle (piece : List Char) : Bool := (Component.ofSegment? piece).isNone

/-- The pieces after the first `n` that stand for something. -/
def dropSteps : Nat → List (List Char) → List (List Char)
  | 0, pieces => pieces
  | _ + 1, [] => []
  | n + 1, piece :: more => if isIdle piece then dropSteps (n + 1) more else dropSteps n more

def dropIdleEnd (pieces : List (List Char)) : List (List Char) :=
  (pieces.reverse.dropWhile isIdle).reverse

/-- The path without its first `n` components. -/
def dropComponents (p : Path) (n : Nat) : Path :=
  match n, p.split with
  | 0, (some .root, pieces) => ⟨'/' :: joinSegments (dropIdleEnd pieces)⟩
  | 0, (some _, pieces) => ⟨joinSegments (['.'] :: dropIdleEnd pieces)⟩
  | 0, (none, pieces) => ⟨joinSegments (dropIdleEnd pieces)⟩
  | n, (front, pieces) =>
    ⟨joinSegments (dropIdleEnd ((dropSteps (n - front.toList.length) pieces).dropWhile isIdle))⟩

/-- The rest of `p` below `base`, if the components of `base` begin those of `p`. -/
def below? (p base : Path) : Option Path :=
  if base.components.isPrefixOf p.components then some (p.dropComponents base.components.length)
  else none

example : (ofString "a//b///c/.").below? (ofString "./a/.") = none := by cbv
example : ((ofString "a//b///c/.").below? (ofString "a/.")).map text = some "b///c" := by cbv
example : ((ofString "./a/").below? (ofString "")).map text = some "./a" := by cbv

end SourceGauge.Path
