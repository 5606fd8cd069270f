import Mathlib
import SourceGauge.Proofs.Scala.Stretch
import SourceGauge.Scala.Lexer

/-! The definition of a function without braces, on one line or with a line break in it. On one line
it takes all of its decisions. With a break behind its condition or behind `else` it takes those
that do not follow the beginning of a statement, and with a break between its parameter lists it has
ended before its body. -/
namespace SourceGauge.Scala

/-- An expression as far as the scan looks into it: its groups are closed, it declares nothing, and
semicolons and case clauses stand in groups. It does not stop at a point or an at sign. -/
structure IsExpression (ts : List Token) : Prop where
  nested : WellNested ts
  not_declares : ∀ before t after, Item.ofTokens ts = before ++ Item.code t :: after →
    ¬ Declares (codeTokens before) t
  enclosed : ∀ before t after, Item.ofTokens ts = before ++ Item.code t :: after →
    openGroups (codeTokens before) = [] → t.isPunct ";" = false ∧ t.isKeyword "case" = false
  ends : ∀ t ∈ ts.getLast?, t.isPunct "@" = false ∧ t.isPunct "." = false

/-- The definition of a function with two parameter lists, without braces. -/
structure Definition where
  word : Token
  name : Token
  first : Group
  second : Group
  equals : Token
  ifWord : Token
  condition : Group
  yes : List Token
  elseWord : Token
  no : List Token
  deriving DecidableEq, Repr

namespace Definition

structure WellFormed (d : Definition) : Prop where
  word : d.word.isKeyword "def" = true
  name : d.name.kind = .ident
  first : d.first.IsOf ("(", ")")
  second : d.second.IsOf ("(", ")")
  equals : d.equals.kind = .operator ∧ d.equals.text = "="
  ifWord : d.ifWord.isKeyword "if" = true
  condition : d.condition.IsOf ("(", ")")
  yes : IsExpression d.yes
  elseWord : d.elseWord.isKeyword "else" = true
  no : IsExpression d.no

/-- What stands before the second parameter list. -/
def head (d : Definition) : List Token := [d.word] ++ ([d.name] ++ d.first.tokens)

/-- From the second parameter list to the end of the condition. -/
def middle (d : Definition) : List Token :=
  d.second.tokens ++ [d.equals, d.ifWord] ++ d.condition.tokens

/-- The two branches. -/
def branches (d : Definition) : List Token := d.yes ++ d.elseWord :: d.no

def tokens (d : Definition) : List Token := d.head ++ (d.middle ++ d.branches)

end Definition

namespace Scan

/-- The word of a function opens it outside all groups. -/
theorem inside_def {word : Token} (hword : word.isKeyword "def" = true) {n : Nat}
    (hline : word.stop.line = n) : Inside n (({} : Scan).code word) := by
  obtain ⟨hkind, htext⟩ := Token.isKeyword_iff.1 hword
  have hends (s : Scan) : s.endsPattern word = false := by simp [endsPattern, hkind]
  have hstarts : ({} : Scan).startsStatement word = false := by
    have hcan : canStartStatement word = false := by
      rw [canStartStatement, hkind]
      exact htext ▸ by decide
    rw [startsStatement, hcan, Bool.and_false]
  have hledger : (({} : Scan).code word).ledger = ⟨1, [⟨0, 0⟩], [], 0⟩ := by
    have hdeclares : ({} : Scan).outline.declares word = true := by
      have hcontains : declarations.contains word.text = true := htext ▸ by decide
      simp [Outline.declares, outline, Outline.inParen, hkind, List.contains_iff_mem.1 hcontains]
    rw [code_eq, enter, hstarts, if_neg Bool.false_ne_true, ledger_consume, hdeclares,
      if_pos rfl, if_pos htext]
    rfl
  refine ⟨?_, congrArg Ledger.outside hledger, ?_, ⟨word, rfl, hline, fun _ => ?_⟩, fun _ => ?_⟩
  · rw [hledger]
    exact ⟨_, List.mem_singleton_self _, rfl⟩
  · have hcase : word.isKeyword "case" = false := by simp [Token.isKeyword, htext]
    rw [patternDepth_code, hcase, hends]
    exact (Option.some_ne_none 0).symm
  · simp [Token.isPunct, hkind]
  · rw [afterCaseArrow_code, hends]

section Word
variable {t : Token}

theorem inert_of_kind (hkeyword : t.kind ≠ .keyword) (hpunct : t.kind ≠ .punct) (s : Scan) :
    s.Inert t := by
  simp [Inert, Quiet, Outline.declares, Token.isPunct, Token.isKeyword, hkeyword, hpunct]

theorem inert_word {word : String} (ht : t.isKeyword word = true)
    (hword : declarations.contains word = false ∧ word ≠ "case") (s : Scan) : s.Inert t := by
  obtain ⟨hkind, rfl⟩ := Token.isKeyword_iff.1 ht
  have hdeclares : s.outline.declares t = false := by
    rw [Outline.declares, hword.1]
    simp
  exact ⟨hdeclares, fun _ => ⟨hdeclares, by simp [Token.isPunct, hkind],
    by simp [Token.isKeyword, hword.2]⟩⟩

theorem stretch_word {word : String} (ht : t.isKeyword word = true)
    (hword : Item.modifiers.contains word = false ∧ word ≠ "case")
    (hdeclares : declarations.contains word = false) : Stretch Inert [t] :=
  stretch_code (Item.read_word ht hword)
    (Token.not_delimiter_of_kind (by simp [(Token.isKeyword_iff.1 ht).1]))
    (inert_word ht ⟨hdeclares, hword.2⟩)

end Word

section Expression
variable {t : Token} {ts : List Token}

theorem along_expression (h : IsExpression ts) :
    Along Inert (Item.ofTokens ts) := by
  refine ⟨fun s hs => frames_foldl_of_wellNested h.nested hs, fun s hs before t after hsplit => ?_⟩
  have hdeclares := declares_foldl hs (h.not_declares before t after hsplit)
  refine ⟨hdeclares, fun hzero => ⟨hdeclares, h.enclosed before t after hsplit ?_⟩⟩
  rw [depth_foldl hs] at hzero
  exact List.length_eq_zero_iff.1 hzero

/-- An expression is read on its own before a reserved word. -/
theorem ofTokens_expression {word : String} (hts : IsExpression ts)
    (ht : t.isKeyword word = true) (hword : Item.modifiers.contains word = false ∧ word ≠ "case")
    (hdeclares : declarations.contains word = false) (rest : List Token) :
    Item.ofTokens (ts ++ t :: rest) = Item.ofTokens ts ++ Item.code t :: Item.ofTokens rest := by
  have hparts : Parts ts (t :: rest) := by
    obtain ⟨hkind, rfl⟩ := Token.isKeyword_iff.1 ht
    refine ⟨.of_keyword hkind rest, ?_, fun _ _ _ => hts.ends⟩
    have htype : t.text ≠ "class" ∧ t.text ≠ "object" := by
      constructor <;> (intro h; rw [h] at hdeclares; revert hdeclares; decide)
    simp [Item.precedesType, Token.isComment, Token.isKeyword, hkind, htype]
  rw [(Item.ofTokens_append hts.nested.matched.parensMatched hparts).1,
    Item.ofTokens_cons_of_read (Item.read_word ht hword rest)]

/-- Words that neither declare nor separate stand in an expression. -/
theorem isExpression_of_words (hnested : WellNested ts)
    (hwords : ∀ t ∈ ts, Scan.declarations.contains t.text = false ∧ t.text ≠ ";" ∧ t.text ≠ "case")
    (hends : ∀ t ∈ ts.getLast?, t.isPunct "@" = false ∧ t.isPunct "." = false) :
    IsExpression ts := by
  have hcode {before : List Item} {t : Token} {after : List Item}
      (hsplit : Item.ofTokens ts = before ++ Item.code t :: after) := hwords t <| by
    apply codeTokens_ofTokens_subset ts
    rw [hsplit, codeTokens_append]
    exact List.mem_append_right _ List.mem_cons_self
  refine ⟨hnested, fun before t after hsplit hdeclares => ?_, fun before t after hsplit _ => ?_,
    hends⟩
  · have hword := hdeclares.word
    rw [(hcode hsplit).1] at hword
    cases hword
  · obtain ⟨-, hsemicolon, hcase⟩ := hcode hsplit
    simp [Token.isPunct, Token.isKeyword, hsemicolon, hcase]

end Expression

end Scan

namespace Definition
open Scan
variable {d : Definition} {n : Nat}

/-- The whole definition stands on one line. -/
def OnLine (d : Definition) (n : Nat) : Prop :=
  ∀ t ∈ d.tokens, t.start.line = n ∧ t.stop.line = n

section WellFormed
variable (h : d.WellFormed)
include h

theorem WellFormed.stretch_name : Stretch Quiet [d.name] :=
  stretch_code (by simp [Item.read, Token.isComment, Token.isPunct, Token.isKeyword, h.name])
    (Token.not_delimiter_of_kind (by simp [h.name]))
    fun s => (inert_of_kind (by simp [h.name]) (by simp [h.name]) s).2

theorem WellFormed.stretch_if : Stretch Inert [d.equals, d.ifWord] := by
  have hequals : Stretch Inert [d.equals] :=
    stretch_code (Item.read_operator h.equals.1)
      (Token.not_delimiter_of_kind (by simp [h.equals.1]))
      (inert_of_kind (by simp [h.equals.1]) (by simp [h.equals.1]))
  exact hequals.append (stretch_word h.ifWord (by decide) (by decide))

theorem WellFormed.stretch_second : Stretch Quiet (d.second.tokens ++ [d.equals, d.ifWord]) :=
  (stretch_group (by decide) h.second).append (h.stretch_if.mono fun _ _ ht => ht.2)

theorem WellFormed.stretch_middle : Stretch Quiet d.middle :=
  h.stretch_second.append (stretch_group (by decide) h.condition)

theorem WellFormed.ofTokens_yes (rest : List Token) :
    Item.ofTokens (d.yes ++ d.elseWord :: rest) =
      Item.ofTokens d.yes ++ Item.code d.elseWord :: Item.ofTokens rest :=
  ofTokens_expression h.yes h.elseWord (by decide) (by decide) rest

theorem WellFormed.stretch_yes : Stretch Inert (d.yes ++ [d.elseWord]) := by
  have helse := stretch_word h.elseWord (by decide) (by decide)
  have halone := h.ofTokens_yes []
  rw [Item.ofTokens] at halone
  refine ⟨fun rest => ?_, ?_⟩
  · rw [List.append_assoc, List.singleton_append, h.ofTokens_yes, halone]
    simp
  · rw [halone, ← Item.ofTokens_singleton (Item.read_word h.elseWord (by decide) [])]
    exact (along_expression h.yes).append helse.along

theorem WellFormed.along_branches : Along Inert (Item.ofTokens d.branches) := by
  rw [branches, List.append_cons, h.stretch_yes.parts]
  exact h.stretch_yes.along.append (along_expression h.no)

theorem WellFormed.opened_word (hline : d.OnLine n) : Opened n [d.word] := by
  have hword (rest : List Token) :
      Item.ofTokens (d.word :: rest) = Item.code d.word :: Item.ofTokens rest :=
    Item.ofTokens_cons_of_read (Item.read_word h.word (by decide) rest)
  have halone : Item.ofTokens [d.word] = [.code d.word] := Item.ofTokens_singleton
    (Item.read_word h.word (by decide) [])
  have hplain := Token.not_delimiter_of_kind (t := d.word)
    (by simp [(Token.isKeyword_iff.1 h.word).1])
  refine ⟨fun rest => ?_, ?_, ?_⟩
  · rw [halone]
    exact hword rest
  · rw [halone]
    exact inside_def h.word (hline d.word List.mem_cons_self).2
  · rw [halone]
    exact (along_code (p := fun _ _ => True) hplain fun _ _ => trivial).closes {} rfl

/-- Behind the name and the first parameter list the function is open. -/
theorem WellFormed.opened_head (hline : d.OnLine n) : Opened n d.head :=
  (h.opened_word hline).append (h.stretch_name.append (stretch_group (by decide) h.first))
    fun t ht => hline t (List.mem_append_left _ (List.mem_cons_of_mem _ ht))

theorem WellFormed.opened_middle (hline : d.OnLine n) : Opened n (d.head ++ d.middle) :=
  (h.opened_head hline).append h.stretch_middle fun t ht =>
    hline t (List.mem_append_right _ (List.mem_append_left _ ht))

theorem WellFormed.opened_else (hline : d.OnLine n) :
    Opened n (d.head ++ d.middle ++ (d.yes ++ [d.elseWord])) := by
  refine (h.opened_middle hline).append (h.stretch_yes.mono fun _ _ ht => ht.2)
    fun t ht => hline t ?_
  rw [tokens, branches, List.append_cons]
  exact List.mem_append_right _ (List.mem_append_right _ (List.mem_append_left _ ht))

theorem WellFormed.leads_else (hline : d.OnLine n) :
    ∀ p ∈ (after (Item.ofTokens (d.head ++ d.middle ++ (d.yes ++ [d.elseWord])))).previous,
      isContinuation p = false := by
  have hprevious : (after (Item.ofTokens
      (d.head ++ d.middle ++ (d.yes ++ [d.elseWord])))).previous = some d.elseWord := by
    rw [(h.opened_middle hline).after_append, h.ofTokens_yes, Item.ofTokens, List.foldl_concat]
    rfl
  rw [hprevious]
  rintro p ⟨rfl⟩
  obtain ⟨hkind, htext⟩ := Token.isKeyword_iff.1 h.elseWord
  have hword : continuationWords.contains "else" = false := by decide
  rw [isContinuation, hkind]
  exact (congrArg continuationWords.contains htext).trans hword

/-- Where a statement begins with the second parameter list, the decision behind it is lost. -/
theorem WellFormed.lost_middle {s : Scan} (hframes : s.frames = []) :
    1 ≤ ((Item.ofTokens (d.middle ++ d.branches)).foldl step s.beginStatement).outside := by
  have hsecond := stretch_group (by decide) h.second
  have hopen := h.second.openFunctions_foldl (by decide) (s := s.beginStatement) hframes
    (openFunctions_beginStatement hframes)
  have hclosed := hsecond.along.closes s.beginStatement hframes
  have hif := (outside_foldl_of_nil (h.stretch_if.along.mono fun _ _ ht => ht.1) hclosed hopen).2
  have hcount : 1 ≤ (codeTokens (Item.ofTokens [d.equals, d.ifWord])).countP Token.decides := by
    have hitems : Item.ofTokens [d.equals, d.ifWord] = [.code d.equals, .code d.ifWord] := by
      rw [Item.ofTokens_cons_of_read (Item.read_operator h.equals.1 _),
        Item.ofTokens_singleton (Item.read_word h.ifWord (by decide) [])]
    obtain ⟨hkind, htext⟩ := Token.isKeyword_iff.1 h.ifWord
    have hdecides : d.ifWord.decides = true := by simp [Token.decides, hkind, htext]
    rw [hitems]
    exact List.countP_pos_iff.2 ⟨d.ifWord, by simp [codeTokens], hdecides⟩
  rw [middle, List.append_assoc, List.append_assoc, hsecond.parts, h.stretch_if.parts,
    List.foldl_append, List.foldl_append]
  refine Nat.le_trans ?_ (outside_le_foldl _ _)
  rw [hif]
  exact Nat.le_trans hcount (Nat.le_add_left ..)

/-- On one line the function takes all decisions. -/
theorem WellFormed.outside_eq_zero (hline : d.OnLine n) :
    ((Item.ofTokens (d.middle ++ d.branches)).foldl step
      (after (Item.ofTokens d.head))).outside = 0 := by
  have hopened := h.opened_head hline
  have halong : Along Quiet (Item.ofTokens (d.middle ++ d.branches)) := by
    rw [h.stretch_middle.parts]
    exact h.stretch_middle.along.append (h.along_branches.mono fun _ _ ht => ht.2)
  refine (hopened.inside.foldl halong hopened.frames fun t ht => hline t ?_).outside
  exact List.mem_append_right _ (codeTokens_ofTokens_subset _ ht)

end WellFormed

/-- The function does not end at a break after which no decision is lost. Before the second
parameter list one always is. -/
theorem functionComplexities_break (h : d.WellFormed) (hline : d.OnLine n) {f : Token → Token}
    (hf : Token.Keeps f) (hlater : ∀ t : Token, t.start.line < (f t).start.line) :
    (CodeMetrics.ofTokens (d.head ++ (d.middle ++ d.branches).map f)).functionComplexities ≠
        (CodeMetrics.ofTokens d.tokens).functionComplexities ∧
      ((CodeMetrics.ofTokens (d.head ++ (d.middle ++ d.branches.map f))).functionComplexities =
          (CodeMetrics.ofTokens d.tokens).functionComplexities ↔
        losesDecisions d.branches = false) ∧
      ((CodeMetrics.ofTokens
          (d.head ++ (d.middle ++ (d.yes ++ d.elseWord :: d.no.map f)))).functionComplexities =
          (CodeMetrics.ofTokens d.tokens).functionComplexities ↔
        losesDecisions d.no = false) := by
  have honline {front back : List Token} (hsplit : d.tokens = front ++ back) :
      ∀ t ∈ back, t.start.line = n ∧ t.stop.line = n :=
    fun t ht => hline t (hsplit ▸ List.mem_append_right front ht)
  refine ⟨?_, ?_, ?_⟩
  · have hopened := h.opened_head hline
    have hleads := (h.opened_word hline).leads_group h.stretch_name (by decide) h.first
    have hstarts : (codeTokens (Item.ofTokens (d.middle ++ d.branches))).head?.any
        canStartStatement = true := by
      obtain ⟨hkind, htext⟩ := Token.isPunct_iff.1 h.second.opening
      rw [middle, List.append_assoc, List.append_assoc, h.second.ofTokens_append (by decide)]
      simp [codeTokens, canStartStatement, hkind, htext]
    rw [hopened.metrics_later hf hlater hleads fun t ht => (honline rfl t ht).1, hstarts,
      if_pos rfl, tokens, hopened.metrics]
    exact complexities_beginStatement_ne (accounted_after _) (h.outside_eq_zero hline)
      (h.lost_middle hopened.frames)
  · have hleads := (h.opened_head hline).leads_group h.stretch_second (by decide) h.condition
    have htokens : d.tokens = d.head ++ d.middle ++ d.branches := by rw [tokens, List.append_assoc]
    rw [htokens, ← List.append_assoc]
    exact (h.opened_middle hline).functionComplexities_later hf hlater hleads h.along_branches
      (honline htokens)
  · have htokens (no : List Token) : d.head ++ (d.middle ++ (d.yes ++ d.elseWord :: no)) =
        d.head ++ d.middle ++ (d.yes ++ [d.elseWord]) ++ no := by simp
    rw [tokens, branches, htokens, htokens]
    exact (h.opened_else hline).functionComplexities_later hf hlater (h.leads_else hline)
      (along_expression h.no) (honline (htokens d.no))

end Definition

/-- With a break behind `else` the second condition is lost to the function. -/
theorem Definition.functionComplexities_break_else :
    let token (kind : Token.Kind) (text : String) (first last : Nat) : Token :=
      ⟨kind, text, ⟨1, first⟩, ⟨1, last⟩⟩
    let group (inner : List Token) (first last : Nat) : Group :=
      ⟨token .punct "(" first (first + 1), inner, token .punct ")" last (last + 1)⟩
    let no := [token .keyword "if" 32 34] ++
      (group [token .ident "a" 36 37, token .operator "<" 38 39, token .ident "b" 40 41]
        35 41).tokens ++
      [token .ident "b" 43 44, token .keyword "else" 45 49, token .number "9" 50 51]
    let d : Definition := {
      word := token .keyword "def" 0 3
      name := token .ident "f" 4 5
      first := group [token .ident "a" 6 7] 5 7
      second := group [token .ident "b" 9 10] 8 10
      equals := token .operator "=" 12 13
      ifWord := token .keyword "if" 14 16
      condition := group [token .ident "a" 18 19, token .operator ">" 20 21, token .ident "b" 22 23]
        17 23
      yes := [token .ident "a" 25 26]
      elseWord := token .keyword "else" 27 31
      no := no }
    tokenize "def f(a)(b) = if (a > b) a else if (a < b) b else 9".toList = d.tokens ∧
      (CodeMetrics.ofTokens (d.head ++ (d.middle ++ (d.yes ++ d.elseWord ::
          d.no.map (Token.later 1))))).functionComplexities ≠
        (CodeMetrics.ofTokens d.tokens).functionComplexities := by
  intro token group no d
  refine ⟨by decide +kernel, ?_⟩
  have hgroup {inner : List Token} (hinner : WellNested inner) (first last : Nat) :
      (group inner first last).IsOf ("(", ")") := ⟨rfl, hinner, rfl⟩
  have hd : d.WellFormed :=
    { word := by decide
      name := rfl
      first := hgroup (by decide) 5 7
      second := hgroup (by decide) 8 10
      equals := ⟨rfl, rfl⟩
      ifWord := by decide
      condition := hgroup (by decide) 17 23
      yes := Scan.isExpression_of_words (by decide) (by decide) (by decide)
      elseWord := by decide
      no := Scan.isExpression_of_words (by decide) (by decide) (by decide) }
  have hline : ∀ t ∈ d.tokens, t.start.line = 1 ∧ t.stop.line = 1 := by decide
  have hloses : losesDecisions d.no = true := by decide +kernel
  have hbreak := (functionComplexities_break hd hline (Token.keeps_later 1)
    fun t => Nat.lt_succ_self t.start.line).2.2
  rw [hloses] at hbreak
  exact fun heq => Bool.noConfusion (hbreak.1 heq)

theorem functionComplexities_ne_of_break :
    (CodeMetrics.ofTokens (tokenize
      "def f(a)(b) = if (a > b) a else if (a < b) b else 9".toList)).functionComplexities = [3] ∧
    (CodeMetrics.ofTokens (tokenize
      "def f(a)(b) = if (a > b) a else\n  if (a < b) b else 9".toList)).functionComplexities =
        [2] := by
  decide +kernel

end SourceGauge.Scala
