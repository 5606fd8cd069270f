import Mathlib
import SourceGauge.Proofs.Scala.Follow

/-! Tokens printed again. The texts of the tokens of a source, one on a line of its own, are read as
the same tokens, and so is each text alone. -/
namespace SourceGauge.Scala

/-- What a token is, apart from where it stands. -/
def Token.spelling (t : Token) : Token.Kind × String := (t.kind, t.text)

/-- The texts of some tokens, with a line break between one and the next. -/
def reprint (ts : List Token) : List Char := ['\n'].intercalate (ts.map (·.text.toList))

section Reprint
variable {t : Token} {ts : List Token}

theorem reprint_singleton (t : Token) : reprint [t] = t.text.toList := by
  simp [reprint, List.intercalate]

theorem reprint_cons (hts : ts ≠ []) : reprint (t :: ts) = t.text.toList ++ '\n' :: reprint ts := by
  obtain ⟨u, ts, rfl⟩ := List.exists_cons_of_ne_nil hts
  simp [reprint, List.intercalate]

end Reprint

@[simp] theorem tokensFrom_nil (p : Position) : tokensFrom p [] = [] := by rw [tokensFrom]

theorem tokensFrom_line (p : Position) (cs : List Char) :
    tokensFrom p ('\n' :: cs) = tokensFrom ⟨p.line + 1, 0⟩ cs := by
  rw [tokensFrom, if_pos (by decide)]
  rfl

/-- A token that is followed by something else is read first, and then what follows it. -/
theorem tokensFrom_follows {c : Char} {rest v : List Char} {e : Lexeme.Extent}
    (hgap : ¬ Lexeme.isGap c = true) (he : Lexeme.extent c rest = e)
    (h : Lexeme.Follows (rest.drop e.length) v) (p : Position) :
    tokensFrom p (c :: rest.take e.length ++ v) =
      ⟨e.kind, String.ofList (c :: rest.take e.length), p,
        p.advanceAll (c :: rest.take e.length) v⟩ ::
      tokensFrom (p.advanceAll (c :: rest.take e.length) v) v := by
  have hread := tokensFrom_token hgap (Lexeme.extent_of_follows he h) p
  rwa [h.take_append, h.drop_append] at hread

theorem spelling_tokensFrom_reprint (p q : Position) (cs : List Char) :
    (tokensFrom q (reprint (tokensFrom p cs))).map Token.spelling =
      (tokensFrom p cs).map Token.spelling := by
  induction p, cs using tokensFrom.induct generalizing q with
  | case1 p => simp [reprint, List.intercalate]
  | case2 p c rest hgap ih =>
    rw [tokensFrom, if_pos hgap]
    exact ih q
  | case3 p c rest hgap e text stop ih =>
    have htokens : tokensFrom p (c :: rest) =
        ⟨e.kind, String.ofList text, p, stop⟩ :: tokensFrom stop (rest.drop e.length) :=
      tokensFrom_token hgap rfl p
    rw [htokens]
    by_cases hlast : tokensFrom stop (rest.drop e.length) = []
    · have hread := tokensFrom_follows hgap rfl (.ending (rest.drop e.length)) q
      rw [List.append_nil, tokensFrom_nil] at hread
      rw [hlast, reprint_singleton, String.toList_ofList, hread]
      rfl
    · have hrest : rest.drop e.length ≠ [] := by
        intro hnil
        rw [hnil] at hlast
        exact hlast (tokensFrom_nil stop)
      have hread := tokensFrom_follows hgap rfl
        (.line hrest (reprint (tokensFrom stop (rest.drop e.length)))) q
      rw [reprint_cons hlast, String.toList_ofList, hread, tokensFrom_line, List.map_cons, ih]
      rfl

theorem spelling_tokensFrom_text {p : Position} {cs : List Char} {t : Token}
    (ht : t ∈ tokensFrom p cs) (q : Position) :
    (tokensFrom q t.text.toList).map Token.spelling = [t.spelling] := by
  induction p, cs using tokensFrom.induct with
  | case1 p => simp at ht
  | case2 p c rest hgap ih =>
    rw [tokensFrom, if_pos hgap] at ht
    exact ih ht
  | case3 p c rest hgap e text stop ih =>
    rw [tokensFrom_token hgap rfl, List.mem_cons] at ht
    rcases ht with rfl | ht
    · have hread := tokensFrom_follows hgap rfl (.ending (rest.drop e.length)) q
      rw [List.append_nil, tokensFrom_nil] at hread
      rw [String.toList_ofList, hread]
      rfl
    · exact ih ht

/-- Printing the tokens of a source text keeps them. The texts with a line break between one and the
next are read as tokens of the same kinds and texts in the same order, and each text alone is read
as its one token. -/
theorem tokenize_reprint (source : List Char) :
    (tokenize (reprint (tokenize source))).map Token.spelling =
        (tokenize source).map Token.spelling ∧
      ∀ t ∈ tokenize source, (tokenize t.text.toList).map Token.spelling = [t.spelling] := by
  simp only [tokenize_eq]
  exact ⟨spelling_tokensFrom_reprint .start .start source,
    fun t ht => spelling_tokensFrom_text ht .start⟩

end SourceGauge.Scala
