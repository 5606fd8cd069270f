import Mathlib
import SourceGauge.Proofs.Scala.Closed

/-! Case clauses and their arrows. The scan keeps the depth of the latest clause that waits for its
arrow. When every clause has an arrow in its own group, none waits at the end. -/
namespace SourceGauge.Scala

/-- Behind the word of every case clause an arrow stands in the same group. -/
def ClausesHaveArrows (ts : List Token) : Prop :=
  ∀ (front : List Token) (t : Token) (back : List Token), ts = front ++ t :: back →
    t.isKeyword "case" = true → Item.precedesType back = false →
      ∃ (pattern : List Token) (arrow : Token) (rest : List Token),
        back = pattern ++ arrow :: rest ∧ WellNested pattern ∧
          arrow.kind = .operator ∧ arrow.text = "=>"

/-- The word of a case clause. -/
def Item.isClause : Item → Bool
  | .code t => t.isKeyword "case"
  | _ => false

/-- What is not read as code leaves all groups as they are. -/
def SkipsWhole (items : List Item) : Prop :=
  ∀ item ∈ items, (∃ t, item = .code t) ∨ WellNested item.tokens

theorem skipsWhole_ofTokens {ts : List Token} (h : Matched ts) : SkipsWhole (Item.ofTokens ts) :=
  (Item.ofTokens_append h.parensMatched (parts_nil ts)).2

theorem length_openGroups_codeTokens {items : List Item} (h : SkipsWhole items) :
    (openGroups (codeTokens items)).length = (openGroups (items.flatMap Item.tokens)).length := by
  induction items using List.reverseRecOn with
  | nil => rfl
  | append_singleton items item ih =>
    have hbefore := ih fun other hother => h other (List.mem_append_left _ hother)
    rw [codeTokens_append, List.flatMap_append, List.flatMap_singleton]
    rcases item.eq_code_or_codeTokens_eq_nil with ⟨t, rfl⟩ | hitem
    · have hcode : codeTokens [.code t] = [t] := rfl
      rw [hcode, Item.tokens, openGroups_concat, openGroups_concat]
      split
      · simpa using hbefore
      split
      · rw [List.length_tail, List.length_tail, hbefore]
      · exact hbefore
    · have hnested : WellNested item.tokens := by
        refine (h item (by simp)).resolve_left ?_
        rintro ⟨t, rfl⟩
        cases hitem
      rw [hitem, List.append_nil, openGroups_append hnested, hbefore]

namespace Scan

/-- What is no code changes only what is known of the words and comments before the next code token.
-/
theorem exists_step_eq (s : Scan) {item : Item} (h : codeTokens [item] = []) :
    ∃ hidden documented, s.step item = { s with hidden := hidden, documented := documented } := by
  cases item with
  | code t => cases h
  | comment t =>
    rw [step]
    split
    · exact ⟨s.hidden, true, rfl⟩
    · exact ⟨s.hidden, s.documented, rfl⟩
  | modifier word qualifier =>
    rw [step]
    split
    · exact ⟨true, s.documented, rfl⟩
    · exact ⟨s.hidden, s.documented, rfl⟩
  | annot span => exact ⟨s.hidden, s.documented, rfl⟩
  | typeCase t => exact ⟨s.hidden, s.documented, rfl⟩

theorem depth_after {items : List Item} (h : SkipsWhole items) :
    (after items).depth = (openGroups (items.flatMap Item.tokens)).length := by
  have hframes : (after items).frames = (openGroups (codeTokens items)).map frameOf := by
    have htracks := (Tracks.after items).frames
    rwa [← outline_after] at htracks
  rw [depth, hframes, List.length_map, length_openGroups_codeTokens h]

/-- Well-nested tokens leave the depth as it is. -/
theorem depth_foldl_step {before items : List Item} (h : SkipsWhole (before ++ items))
    (hitems : WellNested (items.flatMap Item.tokens)) :
    (items.foldl step (after before)).depth = (after before).depth := by
  have hbefore : SkipsWhole before := fun item hitem => h item (List.mem_append_left _ hitem)
  have hafter : items.foldl step (after before) = after (before ++ items) := by
    rw [after, after, List.foldl_append]
  rw [hafter, depth_after h, depth_after hbefore, List.flatMap_append, openGroups_append hitems]

theorem patternDepth_countDecision (s : Scan) : s.countDecision.patternDepth = s.patternDepth := by
  unfold countDecision
  split <;> rfl

theorem patternDepth_punct (s : Scan) (mark : String) :
    (s.punct mark).patternDepth = s.patternDepth := by
  unfold punct
  split
  · rfl
  split
  · rfl
  split <;> rfl

theorem patternDepth_operator (s : Scan) {t : Token} (ht : t.kind = .operator) :
    (s.operator t.text).patternDepth = if s.endsPattern t then none else s.patternDepth := by
  unfold operator
  split
  case isTrue hsymbol =>
    have harrow : s.endsPattern t = false := by
      rcases Bool.or_eq_true_iff.1 hsymbol with h | h <;>
        simp [endsPattern, of_decide_eq_true h]
    rw [patternDepth_countDecision, harrow]
    rfl
  split
  case isTrue hsymbol =>
    have harrow : s.endsPattern t = false := by simp [endsPattern, hsymbol]
    rw [harrow]
    split <;> rfl
  case isFalse =>
    simp only [endsPattern, ht, decide_true, Bool.true_and]
    split <;> rfl

theorem patternDepth_countApi (s : Scan) : s.countApi.patternDepth = s.patternDepth := by
  unfold countApi
  split <;> rfl

theorem patternDepth_declaration (s : Scan) (word : String) :
    (s.declaration word).patternDepth = s.patternDepth := by
  unfold declaration
  split
  · rfl
  · rw [patternDepth_countApi]
    split
    · rfl
    split <;> rfl

theorem patternDepth_keyword (s : Scan) (word : String) :
    (s.keyword word).patternDepth = if word = "case" then some s.depth else s.patternDepth := by
  unfold keyword
  split
  case isTrue hword =>
    rw [patternDepth_countDecision, if_neg]
    rintro rfl
    simp at hword
  split
  case isTrue hword => rfl
  split
  · exact patternDepth_declaration s word
  · rfl

/-- Only the word of a clause and its arrow change what waits for an arrow. -/
theorem patternDepth_code (s : Scan) (t : Token) :
    (s.code t).patternDepth =
      if t.isKeyword "case" then some s.depth
      else if s.endsPattern t then none
      else s.patternDepth := by
  obtain ⟨s', hs', hpattern, hdepth⟩ :
      ∃ s', (if s.startsStatement t then s.beginStatement else s) = s' ∧
        s'.patternDepth = s.patternDepth ∧ s'.depth = s.depth := by
    refine ⟨_, rfl, ?_⟩
    split <;> exact ⟨rfl, rfl⟩
  have harrow : s'.endsPattern t = s.endsPattern t := by
    rw [endsPattern, endsPattern, hpattern, hdepth]
  unfold code
  dsimp only
  rw [hs']
  cases ht : t.kind with
  | punct => simp [patternDepth_punct, hpattern, Token.isKeyword, endsPattern, ht]
  | operator => simp [patternDepth_operator s' ht, harrow, hpattern, Token.isKeyword, ht]
  | keyword => simp [patternDepth_keyword, hpattern, hdepth, Token.isKeyword, endsPattern, ht]
  | _ => simp [hpattern, Token.isKeyword, endsPattern, ht]

theorem afterCaseArrow_code (s : Scan) (t : Token) :
    (s.code t).afterCaseArrow = s.endsPattern t := by
  unfold code
  dsimp only
  split <;> rfl

/-- An arrow ends the pattern that waits for it. -/
theorem patternDepth_code_arrow {s : Scan} {arrow : Token} (hkind : arrow.kind = .operator)
    (htext : arrow.text = "=>") (h : s.patternDepth = some s.depth ∨ s.patternDepth = none) :
    (s.code arrow).patternDepth = none := by
  have hword : arrow.isKeyword "case" = false := by simp [Token.isKeyword, hkind]
  rw [patternDepth_code, hword, if_neg Bool.false_ne_true]
  rcases h with h | h
  · simp [endsPattern, hkind, htext, h]
  · simp [h]

/-- Without a further clause, the one that waits goes on waiting, or has met its arrow. -/
theorem patternDepth_foldl (s : Scan) {items : List Item}
    (h : ∀ item ∈ items, item.isClause = false) :
    (items.foldl step s).patternDepth = s.patternDepth ∨
      (items.foldl step s).patternDepth = none := by
  induction items using List.reverseRecOn with
  | nil => exact .inl rfl
  | append_singleton items item ih =>
    have hbefore := ih fun other hother => h other (List.mem_append_left _ hother)
    rw [List.foldl_concat]
    generalize items.foldl step s = s' at hbefore ⊢
    suffices hstep : (s'.step item).patternDepth = s'.patternDepth ∨
        (s'.step item).patternDepth = none by
      rcases hstep with hstep | hstep
      · rwa [hstep]
      · exact .inr hstep
    rcases item.eq_code_or_codeTokens_eq_nil with ⟨t, rfl⟩ | hitem
    · have ht : t.isKeyword "case" = false := h (.code t) (by simp)
      rw [step, patternDepth_code, ht, if_neg Bool.false_ne_true]
      split
      · exact .inr rfl
      · exact .inl rfl
    · obtain ⟨hidden, documented, hstep⟩ := s'.exists_step_eq hitem
      rw [hstep]
      exact .inl rfl

end Scan

/-- The items before the last clause, the clause, and those after it. -/
theorem exists_last_clause (items : List Item) :
    (∀ item ∈ items, item.isClause = false) ∨
      ∃ (before : List Item) (t : Token) (after : List Item), items = before ++ .code t :: after ∧
        t.isKeyword "case" = true ∧ ∀ item ∈ after, item.isClause = false := by
  induction items with
  | nil => exact .inl nofun
  | cons item items ih =>
    rcases ih with hnone | ⟨before, t, after, rfl, ht, hafter⟩
    · by_cases hitem : item.isClause = true
      · right
        cases item with
        | code t => exact ⟨[], t, items, rfl, hitem, hnone⟩
        | _ => cases hitem
      · left
        exact List.forall_mem_cons.2 ⟨by simpa using hitem, hnone⟩
    · exact .inr ⟨item :: before, t, after, rfl, ht, hafter⟩

namespace Item

/-- The items after some of the items of a token list are the items of the tokens that are left. -/
theorem ofTokens_of_append {ts : List Token} {front back : List Item}
    (h : ofTokens ts = front ++ back) :
    ts = front.flatMap tokens ++ back.flatMap tokens ∧ ofTokens (back.flatMap tokens) = back := by
  have hts := flatMap_tokens_ofTokens ts
  rw [h, List.flatMap_append] at hts
  refine ⟨hts.symm, ?_⟩
  induction front generalizing ts with
  | nil => rwa [← hts] at h
  | cons item front ih =>
    cases ts with
    | nil => simp [ofTokens] at h
    | cons t rest =>
      rw [ofTokens] at h
      have hrest : ofTokens (rest.drop (read t rest).2) = front ++ back := (List.cons.inj h).2
      refine ih hrest ?_
      rw [← List.flatMap_append, ← hrest, flatMap_tokens_ofTokens]

theorem halts_of_operator {t : Token} (ht : t.kind = .operator) (rest : List Token) :
    Halts (t :: rest) where
  toEndsItem := .of_not_comment (by simp [Token.isComment, ht]) (by simp [Token.isPunct, ht]) rest
  not_name := by simp [isName, ht]

theorem read_operator {t : Token} (ht : t.kind = .operator) (rest : List Token) :
    read t rest = (.code t, 0) := by
  simp [read, Token.isComment, Token.isPunct, Token.isKeyword, ht]

theorem precedesType_of_code {t : Token} {rest : List Token} {items : List Item}
    (h : ofTokens (t :: rest) = .code t :: items) (ht : t.isKeyword "case" = true) :
    precedesType rest = false := by
  have hread : (read t rest).1 = .code t := by
    rw [ofTokens] at h
    exact (List.cons.inj h).1
  obtain ⟨hkind, htext⟩ := Token.isKeyword_iff.1 ht
  cases htype : precedesType rest with
  | false => rfl
  | true =>
    simp [read, Token.isComment, Token.isPunct, Token.isKeyword, hkind, htext, modifiers, htype]
      at hread

end Item

/-- Among the items behind a clause stands its arrow, after well-nested tokens. -/
theorem ClausesHaveArrows.exists_items {ts : List Token} (h : ClausesHaveArrows ts)
    {before after : List Item} {t : Token} (hitems : Item.ofTokens ts = before ++ .code t :: after)
    (ht : t.isKeyword "case" = true) :
    ∃ (inner : List Item) (arrow : Token) (rest : List Item), after = inner ++ .code arrow :: rest ∧
      WellNested (inner.flatMap Item.tokens) ∧ arrow.kind = .operator ∧ arrow.text = "=>" := by
  obtain ⟨hts, hcode⟩ := Item.ofTokens_of_append hitems
  rw [List.flatMap_cons, Item.tokens, List.singleton_append] at hts hcode
  obtain ⟨pattern, arrow, rest, hback, hpattern, hkind, htext⟩ :=
    h _ t _ hts ht (Item.precedesType_of_code hcode ht)
  obtain ⟨inner, rfl, hinner⟩ :=
    Item.ofTokens_wellNested hpattern (Item.halts_of_operator hkind rest)
  refine ⟨inner, arrow, Item.ofTokens rest, ?_, hpattern, hkind, htext⟩
  rw [List.append_cons] at hitems
  rw [← (Item.ofTokens_of_append hitems).2, hback, hinner,
    Item.ofTokens_cons_of_read (Item.read_operator hkind rest)]

/-- No clause waits for its arrow at the end. -/
theorem patternDepth_run {ts : List Token} (h : Closed ts) (hclauses : ClausesHaveArrows ts) :
    (Scan.run ts).patternDepth = none := by
  have hwhole : SkipsWhole (Item.ofTokens ts) := skipsWhole_ofTokens h.matched
  rw [Scan.run]
  rcases exists_last_clause (Item.ofTokens ts) with hnone | ⟨before, t, after, hitems, ht, hafter⟩
  · rcases Scan.patternDepth_foldl {} hnone with hend | hend
    · exact hend
    · exact hend
  obtain ⟨inner, arrow, rest, rfl, hinner, hkind, htext⟩ := hclauses.exists_items hitems ht
  obtain ⟨hinnerOther, hrestOther⟩ : (∀ item ∈ inner, item.isClause = false) ∧
      ∀ item ∈ rest, item.isClause = false := by
    rw [List.forall_mem_append, List.forall_mem_cons] at hafter
    exact ⟨hafter.1, hafter.2.2⟩
  -- At its arrow the scan is as deep as at the clause, so the arrow is the one that it waits for.
  have hdepth : (inner.foldl Scan.step ((Scan.after before).code t)).depth =
      (Scan.after before).depth := by
    have hclause : WellNested (t :: inner.flatMap Item.tokens) :=
      hinner.cons (Token.not_delimiter_of_kind (by simp [(Token.isKeyword_iff.1 ht).1]))
    have hskips : SkipsWhole (before ++ .code t :: inner) := by
      intro item hitem
      refine hwhole item ?_
      rw [hitems, ← List.cons_append, ← List.append_assoc]
      exact List.mem_append_left _ hitem
    exact Scan.depth_foldl_step hskips hclause
  have hwaits := Scan.patternDepth_foldl ((Scan.after before).code t) hinnerOther
  rw [Scan.patternDepth_code, if_pos ht, ← hdepth] at hwaits
  rw [hitems, List.foldl_append, List.foldl_cons, List.foldl_append, List.foldl_cons]
  have hend := Scan.patternDepth_foldl
    ((inner.foldl Scan.step ((Scan.after before).code t)).code arrow) hrestOther
  rw [Scan.patternDepth_code_arrow hkind htext hwaits, or_self] at hend
  exact hend

end SourceGauge.Scala
