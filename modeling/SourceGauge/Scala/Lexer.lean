import SourceGauge.Scala.Lexeme
import SourceGauge.Scala.Scanner

/-! The token list of a source text, read off its bytes. Every mark that a token ends at is ASCII,
and every byte outside ASCII belongs to an identifier. -/
namespace SourceGauge.Scala

namespace Scanner
open Lexeme

/-- Reads on inside `depth` block comments, up to the end of the outermost. Comments nest, and an
unclosed one reaches to the end. -/
def closeComments (depth : Nat) (s : Scanner) : Scanner :=
  match _h : s.peek 0 with
  | none => s
  | some c =>
    if c = '/' && s.peek 1 = some '*' then closeComments (depth + 1) s.bump.bump
    else if c = '*' && s.peek 1 = some '/' then
      if depth = 1 then s.bump.bump else closeComments (depth - 1) s.bump.bump
    else closeComments depth s.bump
termination_by s.rest.length
decreasing_by
  · exact Nat.lt_of_le_of_lt (length_bump_le _) (length_bump_lt _h)
  · exact Nat.lt_of_le_of_lt (length_bump_le _) (length_bump_lt _h)
  · exact length_bump_lt _h

def blockComment (s : Scanner) : Scanner := closeComments 1 s.bump.bump

/-- Reads on inside a triple-quoted string. A run of more than three quotes closes on its last
three. -/
def closeRawString (s : Scanner) : Scanner :=
  match _h : s.peek 0 with
  | none => s
  | some c =>
    if c = '"' && s.peek 1 = some '"' && s.peek 2 = some '"' then s.bumpWhile (· = '"')
    else closeRawString s.bump
termination_by s.rest.length
decreasing_by exact length_bump_lt _h

/-- Reads on inside a string on one line. A backslash takes the next byte along, whatever it is. -/
def closeString (s : Scanner) : Scanner :=
  match _h : s.peek 0 with
  | none => s
  | some c =>
    if c = '\\' then closeString s.bump.bump
    else if c = '"' then s.bump
    else if Text.isBreak c then s
    else closeString s.bump
termination_by s.rest.length
decreasing_by
  · exact Nat.lt_of_le_of_lt (length_bump_le _) (length_bump_lt _h)
  · exact length_bump_lt _h

def stringLiteral (s : Scanner) : Scanner :=
  if s.peek 1 = some '"' && s.peek 2 = some '"' then closeRawString (bumps 3 s)
  else closeString s.bump

/-- Reads up to and including `close`, or up to the end of the line. -/
def closeDelimited (close : Char) (s : Scanner) : Scanner :=
  let t := s.bumpWhile fun c => c ≠ close && !Text.isBreak c
  if t.peek 0 = some close then t.bump else t

/-- Reads a character literal, or an apostrophe that stands alone. -/
def quote (s : Scanner) : Except Fault (Token.Kind × Scanner) :=
  if s.peek 1 = some '\\' then .ok (.char, closeDelimited '\'' (bumps 3 s))
  else
    s.sizeAfterNext.map fun size =>
      if 0 < size && !(s.peek 1).any (fun c => Text.isBreak c || c = '\'') &&
          s.peek (1 + size) = some '\'' then
        (.char, bumps (size + 2) s)
      else (.punct, s.bump)

/-- Reads on in a number. A point belongs to it when a digit follows. -/
def number (s : Scanner) : Scanner :=
  match _h : s.peek 0 with
  | none => s
  | some c =>
    if c.isAlphanum || c = '_' || (c = '.' && (s.peek 1).any Char.isDigit) then number s.bump
    else s
termination_by s.rest.length
decreasing_by exact length_bump_lt _h

def atCommentStart (s : Scanner) : Bool :=
  s.peek 0 = some '/' && (s.peek 1 = some '/' || s.peek 1 = some '*')

/-- Reads on in an operator. It stops before a comment. -/
def operator (s : Scanner) : Scanner :=
  match _h : s.peek 0 with
  | none => s
  | some c => if isOperatorChar c && !s.atCommentStart then operator s.bump else s
termination_by s.rest.length
decreasing_by exact length_bump_lt _h

/-- Reads an identifier or a reserved word. -/
def word (s : Scanner) : Except Fault (Token.Kind × Scanner) :=
  let t := s.bumpWhile isIdentPart
  (s.slice t).map fun text => (if keywords.contains text then .keyword else .ident, t)

/-- Reads the token that begins with `c`, the byte that is next. -/
def lexeme (s : Scanner) (c : Char) : Except Fault (Token.Kind × Scanner) :=
  if c = '/' && s.peek 1 = some '/' then .ok (.comment .line, s.bumpWhile (!Text.isBreak ·))
  else if c = '/' && s.peek 1 = some '*' then
    let doc := s.peek 2 = some '*' && s.peek 3 ≠ some '/'
    .ok (.comment (if doc then .doc else .block), s.blockComment)
  else if c = '"' then .ok (.string, s.stringLiteral)
  else if c = '\'' then s.quote
  else if c = '\x60' then .ok (.ident, closeDelimited '\x60' s.bump)
  else if c.isDigit then .ok (.number, s.number)
  else if isIdentStart c then s.word
  else if ['{', '}', '(', ')', '[', ']', ';', ',', '.', '@'].contains c then .ok (.punct, s.bump)
  else if isOperatorChar c then .ok (.operator, s.bump.operator)
  else .ok (.punct, s.bump)

section Length

theorem length_closeComments_le (depth : Nat) (s : Scanner) :
    (closeComments depth s).rest.length ≤ s.rest.length := by
  have hbump := @length_bump_le
  fun_induction closeComments depth s with
  | case1 => exact Nat.le_refl _
  | case2 _ s _ _ _ ih => exact Nat.le_trans ih (Nat.le_trans (hbump _) (hbump s))
  | case3 s => exact Nat.le_trans (hbump _) (hbump s)
  | case4 _ s _ _ _ _ _ ih => exact Nat.le_trans ih (Nat.le_trans (hbump _) (hbump s))
  | case5 _ s _ _ _ _ ih => exact Nat.le_trans ih (hbump s)

theorem length_closeRawString_le (s : Scanner) :
    s.closeRawString.rest.length ≤ s.rest.length := by
  fun_induction closeRawString s with
  | case1 => exact Nat.le_refl _
  | case2 s => exact length_bumpWhile_le _ s
  | case3 s _ _ _ ih => exact Nat.le_trans ih s.length_bump_le

theorem length_closeString_le (s : Scanner) : s.closeString.rest.length ≤ s.rest.length := by
  have hbump := @length_bump_le
  fun_induction closeString s with
  | case1 => exact Nat.le_refl _
  | case2 s _ ih => exact Nat.le_trans ih (Nat.le_trans (hbump _) (hbump s))
  | case3 s => exact hbump s
  | case4 => exact Nat.le_refl _
  | case5 s _ _ _ _ _ ih => exact Nat.le_trans ih (hbump s)

theorem length_closeDelimited_le (close : Char) (s : Scanner) :
    (closeDelimited close s).rest.length ≤ s.rest.length := by
  have hrun := length_bumpWhile_le (fun c => c ≠ close && !Text.isBreak c) s
  simp only [closeDelimited]
  split
  · exact Nat.le_trans (length_bump_le _) hrun
  · exact hrun

theorem number_of_peek {s : Scanner} {c : Char} (h : s.peek 0 = some c) :
    s.number =
      if c.isAlphanum || c = '_' || (c = '.' && (s.peek 1).any Char.isDigit) then s.bump.number
      else s := by
  rw [number]
  exact match_peek h _ _

theorem length_number_le (s : Scanner) : s.number.rest.length ≤ s.rest.length := by
  fun_induction number s with
  | case1 => exact Nat.le_refl _
  | case2 s _ _ _ ih => exact Nat.le_trans ih s.length_bump_le
  | case3 => exact Nat.le_refl _

theorem length_operator_le (s : Scanner) : s.operator.rest.length ≤ s.rest.length := by
  fun_induction operator s with
  | case1 => exact Nat.le_refl _
  | case2 s _ _ _ ih => exact Nat.le_trans ih s.length_bump_le
  | case3 => exact Nat.le_refl _

theorem length_stringLiteral_le (s : Scanner) :
    s.stringLiteral.rest.length ≤ s.bump.rest.length := by
  unfold stringLiteral
  split
  · exact Nat.le_trans (length_closeRawString_le _) (length_bumps_le 2 s.bump)
  · exact length_closeString_le _

theorem length_quote_le {s t : Scanner} {kind : Token.Kind} (h : s.quote = .ok (kind, t)) :
    t.rest.length ≤ s.bump.rest.length := by
  unfold quote at h
  split at h
  · cases h
    exact Nat.le_trans (length_closeDelimited_le _ _) (length_bumps_le 2 s.bump)
  · cases hsize : s.sizeAfterNext with
    | error e => simp [hsize, Except.map] at h
    | ok size =>
      simp only [hsize, Except.map, Except.ok.injEq] at h
      split at h <;> cases h
      · exact length_bumps_le (size + 1) s.bump
      · exact Nat.le_refl _

theorem eq_of_word {s t : Scanner} {kind : Token.Kind} (h : s.word = .ok (kind, t)) :
    t = s.bumpWhile isIdentPart := by
  unfold word at h
  cases htext : s.slice (s.bumpWhile isIdentPart) <;> simp [htext, Except.map] at h
  exact h.2.symm

theorem length_lexeme_lt {s t : Scanner} {c : Char} {kind : Token.Kind}
    (hc : s.peek 0 = some c) (h : s.lexeme c = .ok (kind, t)) :
    t.rest.length < s.rest.length := by
  refine Nat.lt_of_le_of_lt ?_ (length_bump_lt hc)
  have hrun (p : Char → Bool) (hp : p c = true) :
      (s.bumpWhile p).rest.length ≤ s.bump.rest.length := by
    rw [bumpWhile_of_peek hc, if_pos hp]
    exact length_bumpWhile_le p s.bump
  unfold lexeme at h
  split at h
  case isTrue hslash =>
    cases h
    apply hrun
    simp_all [Text.isBreak]
  split at h
  case isTrue =>
    cases h
    exact Nat.le_trans (length_closeComments_le 1 s.bump.bump) (length_bump_le s.bump)
  split at h
  case isTrue =>
    cases h
    exact length_stringLiteral_le s
  split at h
  case isTrue => exact length_quote_le h
  split at h
  case isTrue =>
    cases h
    exact length_closeDelimited_le _ s.bump
  split at h
  case isTrue hdigit =>
    cases h
    rw [number_of_peek hc, if_pos (by simp [Char.isAlphanum, hdigit])]
    exact length_number_le s.bump
  split at h
  case isTrue hstart =>
    rw [eq_of_word h]
    exact hrun isIdentPart (by simp [isIdentPart, hstart])
  split at h
  case isTrue =>
    cases h
    exact Nat.le_refl _
  split at h
  case isTrue =>
    cases h
    exact length_operator_le s.bump
  case isFalse =>
    cases h
    exact Nat.le_refl _

end Length

/-- Takes the token that begins with `c`, the byte that is next. -/
def readToken (s : Scanner) (c : Char) : Except Fault (Token × Scanner) := do
  let (kind, t) ← s.lexeme c
  let text ← s.slice t
  return (⟨kind, text, s.position, t.position⟩, t)

/-- Takes a gap and the token after it, if there is one. -/
def nextToken (s : Scanner) : Except Fault (Option (Token × Scanner)) :=
  let s := s.bumpWhile isGap
  match s.peek 0 with
  | none => .ok none
  | some c => (s.readToken c).map some

theorem length_readToken_lt {s t : Scanner} {c : Char} {token : Token} (hc : s.peek 0 = some c)
    (h : s.readToken c = .ok (token, t)) : t.rest.length < s.rest.length := by
  cases hl : s.lexeme c with
  | error e => simp [readToken, hl, bind, Except.bind] at h
  | ok p =>
    cases ht : s.slice p.2 with
    | error e => simp [readToken, hl, ht, bind, Except.bind] at h
    | ok text =>
      simp [readToken, hl, ht, bind, Except.bind, pure, Except.pure] at h
      obtain ⟨_, rfl⟩ := h
      exact length_lexeme_lt hc hl

theorem length_nextToken_lt {s t : Scanner} {token : Token}
    (h : s.nextToken = .ok (some (token, t))) : t.rest.length < s.rest.length := by
  refine Nat.lt_of_lt_of_le ?_ (length_bumpWhile_le isGap s)
  simp only [nextToken] at h
  split at h
  · simp at h
  · next c hc =>
    cases hr : (s.bumpWhile isGap).readToken c with
    | error e => simp [hr, Except.map] at h
    | ok p =>
      simp only [hr, Except.map, Except.ok.injEq, Option.some.injEq] at h
      exact length_readToken_lt hc (by rw [hr, h])

/-- The tokens ahead. -/
def tokens (s : Scanner) : Except Fault (List Token) :=
  match _h : s.nextToken with
  | .error e => .error e
  | .ok none => .ok []
  | .ok (some (token, t)) => (tokens t).map (token :: ·)
termination_by s.rest.length
decreasing_by exact length_nextToken_lt _h

end Scanner

/-- The tokens of a source text, comments included. -/
def tokenize (source : List Char) : List Token :=
  (Scanner.ofBytes (Text.Utf8.encode source)).tokens.toOption.getD []

end SourceGauge.Scala
