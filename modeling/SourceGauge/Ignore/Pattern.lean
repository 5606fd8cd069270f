/-! Patterns of byte sequences. A pattern is matched by taking what it demands after each byte in
turn; at the end the empty rest must do. -/
namespace SourceGauge.Ignore

/-- The bytes inside some of the ranges, or those inside none. -/
structure ByteSet where
  negated : Bool
  ranges : List (UInt8 × UInt8)
  deriving DecidableEq, Repr

namespace ByteSet

def contains (s : ByteSet) (b : UInt8) : Bool :=
  s.negated != s.ranges.any fun (low, high) => low ≤ b && b ≤ high

def all : ByteSet := ⟨true, []⟩

/-- Every byte but the separator of paths. -/
def inName : ByteSet := ⟨true, [(47, 47)]⟩

end ByteSet

inductive Pattern
  /-- Matches nothing. -/
  | never
  /-- Matches the empty sequence. -/
  | empty
  | byte (s : ByteSet)
  | append (p q : Pattern)
  | either (p q : Pattern)
  | many (p : Pattern)
  deriving DecidableEq, Repr

namespace Pattern

/-- One pattern after another, in a form without idle parts. -/
def andThen : Pattern → Pattern → Pattern
  | .never, _ => .never
  | _, .never => .never
  | .empty, q => q
  | p, .empty => p
  | p, q => .append p q

/-- One of two patterns, in a form without idle parts. -/
def orElse : Pattern → Pattern → Pattern
  | .never, q => q
  | p, .never => p
  | p, q => if p = q then p else .either p q

def one (b : UInt8) : Pattern := .byte ⟨false, [(b, b)]⟩

def literal (bytes : List UInt8) : Pattern := bytes.foldr (fun b p => (one b).andThen p) .empty

def concat (ps : List Pattern) : Pattern := ps.foldr andThen .empty

/-- The pattern matches the empty sequence. -/
def isNullable : Pattern → Bool
  | .never => false
  | .empty => true
  | .byte _ => false
  | .append p q => p.isNullable && q.isNullable
  | .either p q => p.isNullable || q.isNullable
  | .many _ => true

/-- What may follow a first byte. -/
def after (b : UInt8) : Pattern → Pattern
  | .never => .never
  | .empty => .never
  | .byte s => if s.contains b then .empty else .never
  | .append p q =>
    let left := (after b p).andThen q
    if p.isNullable then left.orElse (after b q) else left
  | .either p q => (after b p).orElse (after b q)
  | .many p => (after b p).andThen (.many p)

def accepts (p : Pattern) (bytes : List UInt8) : Bool :=
  (bytes.foldl (fun p b => after b p) p).isNullable

end Pattern
end SourceGauge.Ignore
