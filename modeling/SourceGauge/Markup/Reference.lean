/-! Character references in markup: five names, and code points in decimal or hexadecimal. -/
namespace SourceGauge.Markup

def hexValue? (c : Char) : Option Nat :=
  if c.isDigit then some (c.toNat - 48)
  else if 'a' ≤ c && c ≤ 'f' then some (c.toNat - 87)
  else if 'A' ≤ c && c ≤ 'F' then some (c.toNat - 55)
  else none

/-- The number that digits of a base write. No digits write none. -/
def codeOf? (base : Nat) : List Char → Option Nat
  | [] => none
  | ds => ds.foldlM (fun n c => (hexValue? c).bind fun d =>
      if d < base then some (n * base + d) else none) 0

/-- What a name between an ampersand and a semicolon stands for. -/
def referent? (name : List Char) : Option Char :=
  match name with
  | '#' :: 'x' :: ds => (codeOf? 16 ds).bind character?
  | '#' :: ds => (codeOf? 10 ds).bind character?
  | name =>
    match String.ofList name with
    | "amp" => some '&'
    | "lt" => some '<'
    | "gt" => some '>'
    | "quot" => some '"'
    | "apos" => some '\''
    | _ => none
where
  /-- The character of a code point other than zero. -/
  character? (n : Nat) : Option Char :=
    if n ≠ 0 && n.isValidChar then some (Char.ofNat n) else none

/-- Reads a text whose references are collected in `name` since the last ampersand. -/
def expandFrom (name : Option (List Char)) : List Char → Option (List Char)
  | [] => if name.isSome then none else some []
  | c :: rest =>
    match name with
    | none => if c = '&' then expandFrom (some []) rest else (expandFrom none rest).map (c :: ·)
    | some acc =>
      if c = '&' then none
      else if c = ';' then do
        let d ← referent? acc.reverse
        return d :: (← expandFrom none rest)
      else expandFrom (some (c :: acc)) rest

/-- The text with its references replaced, if all of them are known. -/
def expand (cs : List Char) : Option (List Char) := expandFrom none cs

example : expand "a&lt;&#x41;&#66;".toList = some "a<AB".toList := by cbv
example : expand "a & b;".toList = none := by cbv

end SourceGauge.Markup
