import SourceGauge.Proofs.Scala.TokenMap

/-! What the code metrics see of a token list: the kinds and places of the tokens, and the texts of
reserved words, operators and punctuation. No other text has a part in any of the metrics. -/
namespace SourceGauge.Scala

namespace Token
variable (t : Token)

/-- The token as the code metrics see it. -/
def bare : Token :=
  match t.kind with
  | .keyword | .operator | .punct => t
  | _ => { t with text := "" }

@[simp] theorem kind_bare : t.bare.kind = t.kind := by
  unfold bare
  split <;> rfl

@[simp] theorem start_bare : t.bare.start = t.start := by
  unfold bare
  split <;> rfl

@[simp] theorem stop_bare : t.bare.stop = t.stop := by
  unfold bare
  split <;> rfl

variable {t} in
theorem bare_eq_self (h : t.kind = .keyword ∨ t.kind = .operator ∨ t.kind = .punct) :
    t.bare = t := by
  rcases h with h | h | h <;> simp [bare, h]

theorem keeps_bare : Keeps bare where
  kind := kind_bare
  text h := by rw [bare_eq_self h]
  line_eq t u := by rw [start_bare, stop_bare]
  line_lt t u := by rw [start_bare, stop_bare]

end Token

/-- The code metrics are those of what is seen of the tokens. -/
theorem codeMetrics_bare (ts : List Token) :
    CodeMetrics.ofTokens (ts.map Token.bare) = CodeMetrics.ofTokens ts :=
  codeMetrics_map Token.keeps_bare ts

end SourceGauge.Scala
