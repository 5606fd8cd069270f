import Mathlib
import SourceGauge.Proofs.Scala.Ledger
import SourceGauge.Proofs.Scala.Reach
import SourceGauge.Proofs.Distribution.Fold
import SourceGauge.Scala.FileMetrics

/-! The complexity of a file. What the scan charges are the decision points at which it stops, so
the complexities of the functions and the decisions of the file add up to all of them. -/
namespace SourceGauge.Scala

/-- A decision point before the tokens `rest`: a branch, a case clause or a short-circuit operator.
-/
inductive IsDecision (t : Token) (rest : List Token) : Prop
  | branch (hkind : t.kind = .keyword) (hword : t.text = "if" ∨ t.text = "while" ∨ t.text = "for")
  | clause (hword : t.isKeyword "case" = true) (htype : Item.precedesType rest = false)
  | operator (hkind : t.kind = .operator) (hsymbol : t.text = "&&" ∨ t.text = "||")

/-- The scan stops at the place, and the token there is a decision point. -/
def DecisionAt (tokens : List Token) (place : Nat) : Prop :=
  Reached tokens place ∧ ∃ (front : List Token) (t : Token) (rest : List Token),
    tokens = front ++ t :: rest ∧ front.length = place ∧ IsDecision t rest

open Classical in
/-- The places of the decision points at which the scan stops. -/
noncomputable def decisionPlaces (tokens : List Token) : Finset Nat :=
  (Finset.range tokens.length).filter (DecisionAt tokens)

theorem mem_decisionPlaces {tokens : List Token} {place : Nat} :
    place ∈ decisionPlaces tokens ↔ place < tokens.length ∧ DecisionAt tokens place := by
  simp [decisionPlaces]

theorem IsDecision.decides {t : Token} {rest : List Token} (h : IsDecision t rest) :
    t.decides = true := by
  unfold Token.decides
  cases h with
  | branch hkind hword => simp [hkind, or_assoc, hword]
  | clause hword _ =>
    obtain ⟨hkind, htext⟩ := Token.isKeyword_iff.1 hword
    simp [hkind, htext]
  | operator hkind hsymbol => simpa [hkind] using hsymbol

theorem isDecision_of_decides {t : Token} {rest : List Token} (h : t.decides = true)
    (htype : t.isKeyword "case" = true → Item.precedesType rest = false) : IsDecision t rest := by
  unfold Token.decides at h
  split at h
  case h_1 hkind =>
    simp only [Bool.or_eq_true, decide_eq_true_eq] at h
    rcases h with ((htext | htext) | htext) | htext
    · exact .branch hkind (.inl htext)
    · exact .branch hkind (.inr (.inl htext))
    · exact .branch hkind (.inr (.inr htext))
    · have hword := Token.isKeyword_iff.2 ⟨hkind, htext⟩
      exact .clause hword (htype hword)
  case h_2 hkind => exact .operator hkind (by simpa using h)
  case h_3 => cases h

/-- A decision point is read as code. -/
theorem IsDecision.read_eq {t : Token} {rest : List Token} (h : IsDecision t rest) :
    Item.read t rest = (.code t, 0) := by
  cases h with
  | branch hkind hword =>
    rcases hword with htext | htext | htext <;>
      simp [Item.read, Token.isComment, Token.isPunct, Token.isKeyword, hkind, htext,
        Item.modifiers]
  | clause hword htype =>
    obtain ⟨hkind, htext⟩ := Token.isKeyword_iff.1 hword
    simp [Item.read, Token.isComment, Token.isPunct, Token.isKeyword, hkind, htext, htype,
      Item.modifiers]
  | operator hkind _ => exact Item.read_operator hkind rest

theorem decisionPlaces_eq (tokens : List Token) :
    decisionPlaces tokens = Item.places (fun _ t => t.decides = true) (Item.ofTokens tokens) := by
  ext place
  rw [Item.mem_places, mem_decisionPlaces]
  constructor
  · rintro ⟨-, hreached, front, t, rest, rfl, rfl, hdecision⟩
    obtain ⟨before, after, hitems, rfl⟩ := hreached.exists_items
    rw [hdecision.read_eq] at hitems
    exact ⟨before, t, after, hitems, rfl, hdecision.decides⟩
  · intro hplace
    have hlt : place < tokens.length := by
      have hlt := hplace.lt
      rwa [Item.size, Item.flatMap_tokens_ofTokens] at hlt
    obtain ⟨before, t, after, hitems, rfl, hdecides⟩ := hplace
    obtain ⟨htokens, hback⟩ := Item.ofTokens_of_append hitems
    exact ⟨hlt, ⟨before, _, after, hitems, rfl⟩, before.flatMap Item.tokens, t, _, htokens, rfl,
      isDecision_of_decides hdecides (Item.precedesType_of_code hback)⟩

theorem Item.card_places_countP (p : Token → Bool) (items : List Item) :
    (places (fun _ t => p t = true) items).card = (codeTokens items).countP p := by
  induction items using List.reverseRecOn with
  | nil => simp [places, codeTokens]
  | append_singleton items item ih =>
    rw [card_places_concat, ih, codeTokens_append, List.countP_append]
    congr 1
    rcases item.eq_code_or_codeTokens_eq_nil with ⟨t, rfl⟩ | hitem
    · simp [codeTokens, List.countP_singleton]
    · rw [hitem, if_neg]
      · rfl
      · rintro ⟨t, rfl, -⟩
        cases hitem

/-- What the scan has charged at the end is the number of the decision points. -/
theorem charged_run (tokens : List Token) :
    (Scan.run tokens).ledger.charged = (decisionPlaces tokens).card := by
  rw [decisionPlaces_eq, Item.card_places_countP]
  exact Scan.charged_after (Item.ofTokens tokens)

/-- No decision point is lost or counted twice. There are as many complexities as functions, each at
least one, and the complexity of a file is the number of its functions and of the decision points
that stand neither in annotations nor in qualifiers. The distribution of a source text has one entry
for each function, whatever the limits. -/
theorem complexity_eq_functions_add_decisions (tokens : List Token) :
    let metrics := CodeMetrics.ofTokens tokens
    metrics.functions = metrics.functionComplexities.length ∧
      (∀ c ∈ metrics.functionComplexities, 1 ≤ c) ∧
      metrics.complexity = metrics.functions + (decisionPlaces tokens).card ∧
      (∀ place < tokens.length,
        Reached tokens place ↔ ¬ (InAnnot tokens place ∨ InQualifier tokens place)) ∧
      ∀ policy limits source,
        (analyze policy limits source).functionComplexity.total =
          (analyze policy limits source).functions := by
  have hmetrics (tokens : List Token) :=
    Scan.metrics_of_accounted _ (Scan.accounted_after (Item.ofTokens tokens))
  obtain ⟨hfunctions, hpositive, hsum, hcomplexity⟩ := hmetrics tokens
  refine ⟨hfunctions, hpositive, ?_, fun place hplace => ?_, fun policy limits source => ?_⟩
  · rw [← charged_run]
    exact hcomplexity.trans hsum
  · rw [← not_reached_iff hplace, not_not]
  · have htotal := Distribution.total_ofValues limits
      (CodeMetrics.ofTokens (tokenize source)).functionComplexities
    exact htotal.trans (hmetrics (tokenize source)).1.symm

/-- The words of an annotation and of a qualifier are no decisions, and a nested function has its
own complexity. -/
theorem complexity_eq_functions_add_decisions_nested :
    let source := "@while(if) private[for] def f = \x7b def g = a && b; if (c) g \x7d".toList
    let tokens := tokenize source
    InAnnot tokens 3 ∧ ¬ Reached tokens 3 ∧ (decisionPlaces tokens).card = 2 ∧
      (CodeMetrics.ofTokens tokens).functionComplexities = [2, 2] ∧
      (analyze .code [] source).functionComplexity.total = 2 := by
  intro source tokens
  have htokens : tokens = ⟨.punct, "@", ⟨1, 0⟩, ⟨1, 1⟩⟩ :: tokens.drop 1 := by decide +kernel
  have hspan : 3 ≤ Item.annotationLength (tokens.drop 1) := by decide +kernel
  have hlength : 3 < tokens.length := by decide +kernel
  have hannot : InAnnot tokens 3 :=
    ⟨[], _, _, htokens, htokens ▸ reached_head _ _, rfl, Nat.zero_lt_succ 2, by simpa using hspan⟩
  have hcounts : CodeMetrics.ofTokens tokens = {
      types := 0, statements := 1, functions := 2, complexity := 4
      functionComplexities := [2, 2], publicApi := 0, undocumentedPublicApi := 0 } := by
    decide +kernel
  obtain ⟨-, -, hcomplexity, hreached, htotal⟩ := complexity_eq_functions_add_decisions tokens
  have hcard : (decisionPlaces tokens).card = 2 := by
    rw [hcounts] at hcomplexity
    exact (Nat.add_left_cancel hcomplexity).symm
  refine ⟨hannot, fun h => (hreached 3 hlength).1 h (.inl hannot), hcard, ?_, ?_⟩
  · rw [hcounts]
  · exact (htotal .code [] source).trans (congrArg CodeMetrics.functions hcounts)

end SourceGauge.Scala
