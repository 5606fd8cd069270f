import Mathlib
import SourceGauge.Proofs.Scala.Nesting
import SourceGauge.Proofs.Scala.Position
import SourceGauge.Proofs.Scala.Reprint
import SourceGauge.Proofs.Scala.TokenMap

/-! Tokens of two texts with a line break between them. When the first text ends with a closing
brace, no token reaches over the break, and those of the second text stand where they stand in it
alone, some lines later. -/
namespace SourceGauge.Scala

namespace Position

/-- The place some lines later. -/
def later (k : Nat) (p : Position) : Position := ⟨p.line + k, p.column⟩

theorem advance_later (k : Nat) (p : Position) (c : Char) (next : Option Char) :
    (p.later k).advance c next = (p.advance c next).later k := by
  unfold advance
  split
  · simp [later, Nat.add_right_comm]
  · rfl

theorem advanceAll_later (k : Nat) (p : Position) (cs rest : List Char) :
    (p.later k).advanceAll cs rest = (p.advanceAll cs rest).later k := by
  induction cs generalizing p with
  | nil => rfl
  | cons c cs ih => rw [advanceAll, advanceAll, advance_later, ih]

end Position

namespace Token

/-- The token some lines later. -/
def later (k : Nat) (t : Token) : Token :=
  { t with start := t.start.later k, stop := t.stop.later k }

theorem keeps_later (k : Nat) : Keeps (later k) where
  kind _ := rfl
  text _ := rfl
  line_eq _ _ := Nat.add_right_cancel_iff
  line_lt _ _ := Nat.add_lt_add_iff_right

end Token

theorem tokensFrom_later (k : Nat) (p : Position) (cs : List Char) :
    tokensFrom (p.later k) cs = (tokensFrom p cs).map (Token.later k) := by
  induction p, cs using tokensFrom.induct with
  | case1 p => simp
  | case2 p c rest hgap ih =>
    rw [tokensFrom, if_pos hgap, Position.advance_later, ih, tokensFrom, if_pos hgap]
  | case3 p c rest hgap e text stop ih =>
    have hread (q : Position) := tokensFrom_token hgap (show Lexeme.extent c rest = e from rfl) q
    rw [hread, hread, Position.advanceAll_later, List.map_cons, ih]
    rfl

/-- A text that ends with a closing brace is read in the same way when another text follows it on
the next line, and so is the other text. -/
theorem tokensFrom_append_line {p : Position} {cs : List Char}
    (h : ∀ t ∈ (tokensFrom p cs).getLast?, t.isPunct "\x7d" = true) (behind : List Char) :
    tokensFrom p (cs ++ '\n' :: behind) =
      tokensFrom p cs ++ tokensFrom (p.advanceAll (cs ++ ['\n']) behind) behind := by
  induction p, cs using tokensFrom.induct with
  | case1 p =>
    rw [List.nil_append, tokensFrom_line, tokensFrom_nil]
    rfl
  | case2 p c rest hgap ih =>
    rw [tokensFrom, if_pos hgap] at h
    have hih := ih h
    rw [List.cons_append, tokensFrom, if_pos hgap, tokensFrom, if_pos hgap]
    cases rest with
    | nil =>
      rw [List.nil_append, tokensFrom_line, tokensFrom_nil]
      rfl
    | cons d rest => exact hih
  | case3 p c rest hgap e text stop ih =>
    have htokens : tokensFrom p (c :: rest) =
        ⟨e.kind, String.ofList text, p, stop⟩ :: tokensFrom stop (rest.drop e.length) :=
      tokensFrom_token hgap rfl p
    rw [htokens] at h ⊢
    by_cases hrest : rest.drop e.length = []
    -- The last token is the brace, which is read without looking ahead.
    · rw [hrest, tokensFrom_nil] at h ⊢
      have htext : String.ofList text = "\x7d" := (Token.isPunct_iff.1 (h _ rfl)).2
      have hchars : text = ['\x7d'] := by
        rw [← String.toList_ofList (l := text), htext]
        rfl
      obtain ⟨rfl, hnil⟩ := List.cons.inj hchars
      obtain rfl : rest = [] := by
        rw [← List.take_append_drop e.length rest, hnil, hrest]
        rfl
      have hbrace (more : List Char) : Lexeme.extent '\x7d' more = ⟨.punct, 0⟩ := rfl
      have hread : tokensFrom p ('\x7d' :: '\n' :: behind) = _ :=
        tokensFrom_token hgap (hbrace _) p
      rw [List.singleton_append, hread, List.drop_zero, tokensFrom_line]
      rfl
    · have hlast : ∀ t ∈ (tokensFrom stop (rest.drop e.length)).getLast?,
          t.isPunct "\x7d" = true := by
        intro t ht
        refine h t ?_
        rw [List.getLast?_cons, Option.mem_def.1 ht]
        rfl
      have hsplit (more : List Char) :
          c :: rest ++ more = text ++ (rest.drop e.length ++ more) := by
        have hchars : c :: rest = text ++ rest.drop e.length := by
          rw [List.cons_append, List.take_append_drop]
        rw [hchars, List.append_assoc]
      have hstop (more : List Char) : p.advanceAll text (rest.drop e.length ++ more) = stop := by
        obtain ⟨d, ds, hds⟩ := List.exists_cons_of_ne_nil hrest
        exact Position.advanceAll_head p text (by rw [hds]; rfl)
      have hread : tokensFrom p (text ++ (rest.drop e.length ++ '\n' :: behind)) =
          ⟨e.kind, String.ofList text, p,
            p.advanceAll text (rest.drop e.length ++ '\n' :: behind)⟩ ::
          tokensFrom (p.advanceAll text (rest.drop e.length ++ '\n' :: behind))
            (rest.drop e.length ++ '\n' :: behind) :=
        tokensFrom_follows hgap rfl (.longer hrest behind) p
      have hbreak : p.advanceAll (c :: rest ++ ['\n']) behind =
          stop.advanceAll (rest.drop e.length ++ ['\n']) behind := by
        rw [hsplit, Position.advanceAll_append, List.append_assoc, hstop]
      rw [hsplit, hread, hstop, ih hlast, hbreak, List.cons_append]

theorem tokenize_append_line {source : List Char}
    (h : ∀ t ∈ (tokenize source).getLast?, t.isPunct "\x7d" = true) (behind : List Char) :
    ∃ k, tokenize (source ++ '\n' :: behind) =
      tokenize source ++ (tokenize behind).map (Token.later k) := by
  simp only [tokenize_eq] at h ⊢
  refine ⟨(Position.start.advanceAll source ('\n' :: behind)).line, ?_⟩
  have hbreak : Position.start.advanceAll (source ++ ['\n']) behind =
      Position.start.later (Position.start.advanceAll source ('\n' :: behind)).line := by
    rw [Position.advanceAll_append, List.singleton_append, Position.later, Nat.add_comm]
    rfl
  rw [tokensFrom_append_line h, hbreak, tokensFrom_later]

end SourceGauge.Scala
