import Mathlib
import SourceGauge.Proofs.Scala.Clause
import SourceGauge.Proofs.Scala.Documented
import SourceGauge.Proofs.Scala.Seam

/-! Code metrics of two texts, one after the other. Where the first text ends nothing is open that
the declaration at the start of the second one does not end. From there the scan runs as it does
over the second text alone, above the counts of the first. -/
namespace SourceGauge.Scala

/-- A word that declares a type. -/
structure Token.IsTypeWord (t : Token) : Prop where
  keyword : t.kind = .keyword
  word : Scan.isTypeWord t.text = true

/-- The declaration of a type, after comments, modifiers and annotations without type arguments. -/
def StartsType (ts : List Token) : Prop :=
  ∃ leads decl post, ts = leads.flatMap Lead.tokens ++ decl :: post ∧
    Lead.Sequence (decl :: post) leads ∧ (∀ lead ∈ leads, lead.isTyped = false) ∧
    decl.IsTypeWord

theorem Token.IsTypeWord.text_eq {t : Token} (h : t.IsTypeWord) :
    t.text = "class" ∨ t.text = "object" ∨ t.text = "trait" := by
  simpa [Scan.isTypeWord, or_assoc] using h.word

theorem Token.IsTypeWord.contains_declarations {t : Token} (h : t.IsTypeWord) :
    Scan.declarations.contains t.text = true := by
  rcases h.text_eq with htext | htext | htext <;> rw [htext] <;> decide

/-- Without type arguments a lead is no code. -/
theorem Lead.WellFormed.exists_item {lead : Lead} {rest : List Token} (h : lead.WellFormed rest)
    (htyped : lead.isTyped = false) (hrest : Item.EndsItem rest) :
    ∃ item, Item.ofTokens (lead.tokens ++ rest) = item :: Item.ofTokens rest ∧
      codeTokens [item] = [] := by
  match lead with
  | .comment t => exact ⟨_, (readsAs_comment h).ofTokens, rfl⟩
  | .modifier word qualifier => exact ⟨_, (readsAs_modifier h hrest).ofTokens, rfl⟩
  | .annot mark name parts none arguments => exact ⟨_, (readsAs_annot h hrest).ofTokens, rfl⟩
  | .annot mark name parts (some g) arguments => cases htyped
  | .typeCase word => exact ⟨_, (readsAs_typeCase h).ofTokens, rfl⟩

theorem Lead.Sequence.codeTokens_ofTokens {leads : List Lead} {rest : List Token}
    (h : Sequence rest leads) (htyped : ∀ lead ∈ leads, lead.isTyped = false)
    (hrest : Item.EndsItem rest) :
    codeTokens (Item.ofTokens (leads.flatMap tokens ++ rest)) =
      codeTokens (Item.ofTokens rest) := by
  induction leads with
  | nil => rfl
  | cons lead leads ih =>
    obtain ⟨hlead, hleads⟩ := List.forall_mem_cons.1 htyped
    obtain ⟨item, hitem, hcode⟩ := h.1.exists_item hlead (h.2.endsItem hrest)
    rw [List.flatMap_cons, List.append_assoc, hitem, ← List.singleton_append, codeTokens_append,
      hcode, List.nil_append, ih h.2 hleads]

/-- The first code is the word of the declaration. -/
theorem StartsType.exists_typeWord {ts : List Token} (h : StartsType ts) :
    ∃ t ∈ (codeTokens (Item.ofTokens ts)).head?, t.IsTypeWord := by
  obtain ⟨leads, decl, post, rfl, hleads, htyped, hdecl⟩ := h
  refine ⟨decl, ?_, hdecl⟩
  rw [hleads.codeTokens_ofTokens htyped (.of_keyword hdecl.keyword post),
    ofTokens_declaration hdecl.keyword hdecl.contains_declarations]
  rfl

theorem codeTokens_map (f : Token → Token) (items : List Item) :
    codeTokens (items.map (.map f)) = (codeTokens items).map f := by
  simp only [codeTokens, List.filterMap_map, List.map_filterMap]
  congr
  funext item
  cases item <;> rfl

namespace Scan

/-- What a declaration outside all groups keeps of the scan before it. The functions have ended. -/
def settle (s : Scan) : Scan :=
  { s.closeFrom 0 with pendingTemplate := false, previous := none, afterCaseArrow := false }

/-- Outside all groups, and not behind a point. -/
structure Outermost (s : Scan) : Prop where
  frames : s.frames = []
  not_selected : s.previous.any (·.isPunct ".") = false

theorem openFunctions_settle (s : Scan) : s.settle.openFunctions = [] := by
  rw [settle, closeFrom]
  generalize s.openFunctions = functions, s.ended = ended
  induction functions generalizing ended with
  | nil => rfl
  | cons f functions ih => exact ih _

theorem closeFrom_settle (s : Scan) (depth : Nat) : s.settle.closeFrom depth = s.settle :=
  closeFrom_of_openFunctions_eq_nil s.openFunctions_settle depth

theorem metrics_settle (s : Scan) : s.settle.metrics = s.metrics := by
  rw [metrics, closeFrom_settle]
  rfl

theorem Outermost.step_settle {s : Scan} (h : s.Outermost) {item : Item}
    (hitem : codeTokens [item] = []) :
    (s.step item).Outermost ∧ (s.step item).settle = s.settle.step item := by
  cases item with
  | comment t => rw [step, step]; split <;> exact ⟨⟨h.1, h.2⟩, rfl⟩
  | annot span => exact ⟨h, rfl⟩
  | modifier word qualifier => rw [step, step]; split <;> exact ⟨⟨h.1, h.2⟩, rfl⟩
  | typeCase t => exact ⟨h, rfl⟩
  | code t => cases hitem

theorem countApi_of_frames_eq_nil {s : Scan} (h : s.frames = []) :
    s.countApi =
      { s with
        publicApi := s.publicApi + if s.hidden then 0 else 1
        undocumented := s.undocumented + if s.hidden || s.documented then 0 else 1 } := by
  rcases s with ⟨_, _, _, _, _, _, _, _, _, _, _, hidden, documented, _, _⟩
  obtain rfl := h
  cases hidden <;> cases documented <;> rfl

/-- The declaration of a type outside all groups ends all functions, and is public unless hidden. -/
theorem Outermost.code_eq {s : Scan} (h : s.Outermost) {t : Token} (ht : t.IsTypeWord) :
    s.code t =
      { s.closeFrom 0 with
        types := s.types + 1
        publicApi := s.publicApi + if s.hidden then 0 else 1
        undocumented := s.undocumented + if s.hidden || s.documented then 0 else 1
        pendingTemplate := true
        previous := some t
        hidden := false
        documented := false
        afterCaseArrow := false } := by
  have hstart : s.startsStatement t = false := by
    rcases ht.text_eq with htext | htext | htext <;>
      simp [startsStatement, canStartStatement, ht.keyword, htext, statementWords]
  have hkeyword : s.keyword t.text = s.declaration t.text := by
    rcases ht.text_eq with htext | htext | htext <;>
      simp [keyword, htext, declarations, h.not_selected]
  have hdeclaration : s.declaration t.text =
      { s.closeFrom 0 with
        types := s.types + 1
        publicApi := s.publicApi + if s.hidden then 0 else 1
        undocumented := s.undocumented + if s.hidden || s.documented then 0 else 1
        pendingTemplate := true } := by
    have hparen : s.inParen = false := by simp [inParen, h.frames]
    have hdepth : s.depth = 0 := by simp [depth, h.frames]
    have hdef : t.text ≠ "def" := by
      rcases ht.text_eq with htext | htext | htext <;> simp [htext]
    simp only [declaration, hparen, hdepth, hdef, ht.word]
    exact countApi_of_frames_eq_nil h.frames
  have hpattern : s.endsPattern t = false := by simp [endsPattern, ht.keyword]
  simp only [code, hstart, ht.keyword, Bool.false_eq_true, if_false, hkeyword, hdeclaration,
    hpattern]

theorem Outermost.code_settle {s : Scan} (h : s.Outermost) {t : Token} (ht : t.IsTypeWord) :
    s.code t = s.settle.code t := by
  have hsettle : s.settle.Outermost := ⟨h.frames, rfl⟩
  rw [h.code_eq ht, hsettle.code_eq ht, s.closeFrom_settle]
  rfl

/-- The declaration of a type forgets the rest of what stands before. -/
theorem Outermost.foldl_step_settle {s : Scan} (h : s.Outermost) {items : List Item}
    (hitems : ∃ t ∈ (codeTokens items).head?, t.IsTypeWord) :
    items.foldl step s = items.foldl step s.settle := by
  induction items generalizing s with
  | nil => simp [codeTokens] at hitems
  | cons item items ih =>
    rw [List.foldl_cons, List.foldl_cons]
    rcases item.eq_code_or_codeTokens_eq_nil with ⟨t, rfl⟩ | hitem
    · obtain ⟨decl, hdecl, htype⟩ := hitems
      obtain rfl : t = decl := Option.some.inj hdecl
      rw [step, step, h.code_settle htype]
    · obtain ⟨houtermost, hsettle⟩ := h.step_settle hitem
      rw [← List.singleton_append, codeTokens_append, hitem, List.nil_append] at hitems
      rw [← hsettle, ih houtermost hitems]

/-- At the end of such a text nothing but the counts is left for a declaration that follows. -/
theorem outermost_run {ts : List Token} (h : Closed ts) (hnested : WellNested ts)
    (hclauses : ClausesHaveArrows ts) (f : Token → Token) :
    (run ts).Outermost ∧ (run ts).settle = ({} : Scan).above (run ts).settle f := by
  have hwhole : SkipsWhole (Item.ofTokens ts) := skipsWhole_ofTokens h.matched
  have hframes : (run ts).frames = [] := by
    have hgroups : openGroups ts = [] := openGroups_append hnested []
    have hdepth : (run ts).depth = (openGroups ts).length := by
      rw [← Item.flatMap_tokens_ofTokens ts, ← depth_after hwhole, Item.flatMap_tokens_ofTokens]
      rfl
    rwa [hgroups, depth, List.length_nil, List.length_eq_zero_iff] at hdepth
  have hpattern : (run ts).patternDepth = none := patternDepth_run h hclauses
  obtain ⟨hselected, hhidden, hdocumented⟩ : (run ts).previous.any (·.isPunct ".") = false ∧
      (run ts).hidden = false ∧ (run ts).documented = false := by
    rw [run]
    rcases List.eq_nil_or_concat (Item.ofTokens ts) with hnil | ⟨front, item, hitems⟩
    · rw [hnil]
      exact ⟨rfl, rfl, rfl⟩
    · obtain ⟨t, rfl, ht⟩ := (Item.ofTokens_of_closed h).2 item (by simp [hitems])
      rw [hitems, List.concat_eq_append, List.foldl_concat]
      exact ⟨Token.isPunct_of_isPunct ht ".", rfl, rfl⟩
  refine ⟨⟨hframes, hselected⟩, ?_⟩
  have hopen := (run ts).openFunctions_settle
  rw [settle, closeFrom_eq] at hopen ⊢
  simp only at hopen
  simp [above, hopen, hframes, hpattern, hhidden, hdocumented]

end Scan

/-- Code metrics add up when the first text ends with a brace and leaves no group and no case
pattern open, and the second one begins with a type. What the first text declares does not
matter. -/
theorem codeMetrics_append_line {a b : List Char}
    (hbrace : ∀ t ∈ (tokenize a).getLast?, t.isPunct "\x7d" = true)
    (hnested : WellNested (tokenize a)) (hclauses : ClausesHaveArrows (tokenize a))
    (hb : StartsType (tokenize b)) :
    CodeMetrics.ofTokens (tokenize (a ++ '\n' :: b)) =
      (CodeMetrics.ofTokens (tokenize a)).append (CodeMetrics.ofTokens (tokenize b)) := by
  have hclosed : Closed (tokenize a) := ⟨hnested.matched, hbrace⟩
  obtain ⟨k, htokens⟩ := tokenize_append_line hbrace b
  obtain ⟨houtermost, hsettle⟩ := Scan.outermost_run hclosed hnested hclauses (Token.later k)
  have hstarts : ∃ t ∈ (codeTokens
      ((Item.ofTokens (tokenize b)).map (.map (Token.later k)))).head?, t.IsTypeWord := by
    obtain ⟨t, ht, htype⟩ := hb.exists_typeWord
    refine ⟨t.later k, ?_, htype.1, htype.2⟩
    rw [codeTokens_map, List.head?_map, Option.mem_def.1 ht]
    rfl
  have hrun : Scan.run (tokenize (a ++ '\n' :: b)) =
      (Scan.run (tokenize b)).above (Scan.run (tokenize a)).settle (Token.later k) := by
    rw [htokens, Scan.run, (Item.ofTokens_of_closed hclosed).1,
      Item.ofTokens_map (Token.keeps_later k), List.foldl_append, ← Scan.run,
      houtermost.foldl_step_settle hstarts, hsettle]
    exact Scan.foldl_step_above {} _ (Token.keeps_later k) fun _ _ => Item.kind_of_modifier
  rw [CodeMetrics.ofTokens, hrun,
    Scan.metrics_above (Scan.run (tokenize a)).openFunctions_settle, Scan.metrics_settle]
  rfl

/-- The first text has a case clause, and the type of the second a doc comment and a modifier. -/
theorem codeMetrics_append_line_clause :
    let a := "object A \x7b def f = g \x7b case 1 => 2 \x7d \x7d".toList
    let b := "/** doc */ final class B \x7b def h = 1 \x7d".toList
    CodeMetrics.ofTokens (tokenize (a ++ '\n' :: b)) =
        (CodeMetrics.ofTokens (tokenize a)).append (CodeMetrics.ofTokens (tokenize b)) ∧
      (CodeMetrics.ofTokens (tokenize a)).functionComplexities = [2] ∧
      (CodeMetrics.ofTokens (tokenize b)).functionComplexities = [1] := by
  intro a b
  let token (kind : Token.Kind) (text : String) (first last : Nat) : Token :=
    ⟨kind, text, ⟨1, first⟩, ⟨1, last⟩⟩
  let header := [token .keyword "object" 0 6, token .ident "A" 7 8]
  let definition := [token .keyword "def" 11 14, token .ident "f" 15 16, token .operator "=" 17 18,
    token .ident "g" 19 20]
  let outer := token .punct "\x7b" 9 10
  let inner := token .punct "\x7b" 21 22
  let clause := token .keyword "case" 23 27
  let pattern := [token .number "1" 28 29]
  let arrow := token .operator "=>" 30 32
  let result := [token .number "2" 33 34]
  let innerEnd := token .punct "\x7d" 35 36
  let outerEnd := token .punct "\x7d" 37 38
  let before := header ++ outer :: (definition ++ [inner])
  let after := pattern ++ arrow :: (result ++ [innerEnd, outerEnd])
  have ha : tokenize a = before ++ clause :: after := by decide +kernel
  have hpattern : WellNested pattern := .token rfl rfl .nil
  have hclause : WellNested (clause :: (pattern ++ arrow :: result)) :=
    .token rfl rfl (hpattern.append (.token rfl rfl (.token rfl rfl .nil)))
  let body := definition ++ inner :: (clause :: (pattern ++ arrow :: result) ++ [innerEnd])
  have hbody : WellNested body :=
    .append (.token rfl rfl (.token rfl rfl (.token rfl rfl (.token rfl rfl .nil))))
      (.group (d := ("\x7b", "\x7d")) (by decide) rfl rfl hclause .nil)
  have hnested : WellNested (tokenize a) := by
    rw [ha]
    show WellNested (header ++ outer :: (body ++ [outerEnd]))
    exact .append (.token rfl rfl (.token rfl rfl .nil))
      (.group (d := ("\x7b", "\x7d")) (by decide) rfl rfl hbody .nil)
  have hclauses : ClausesHaveArrows (tokenize a) := by
    intro front t back hsplit ht _
    have hother : ∀ t ∈ before ++ after, t.isKeyword "case" = false := by decide
    rw [ha, List.append_cons_inj_of_notMem (by grind) (by grind)] at hsplit
    obtain ⟨-, -, rfl⟩ := hsplit
    exact ⟨pattern, arrow, _, rfl, hpattern, rfl, rfl⟩
  have hb : StartsType (tokenize b) := by
    let leads : List Lead := [.comment (token (.comment .doc) "/** doc */" 0 10),
      .modifier (token .keyword "final" 11 16) none]
    let decl := token .keyword "class" 17 22
    refine ⟨leads, decl, (tokenize b).drop 3, ?_, ⟨rfl, ⟨rfl, by decide, by simp⟩, trivial⟩, ?_,
      ⟨rfl, by decide⟩⟩
    · decide +kernel
    · decide
  refine ⟨codeMetrics_append_line ?_ hnested hclauses hb, ?_, ?_⟩
  all_goals decide +kernel

/-- A clause without an arrow takes one from the second text. -/
example :
    let a := "object A \x7b case 1 \x7d".toList
    let b := "class B \x7b x => y \x7d".toList
    CodeMetrics.ofTokens (tokenize (a ++ '\n' :: b)) ≠
      (CodeMetrics.ofTokens (tokenize a)).append (CodeMetrics.ofTokens (tokenize b)) := by
  decide +kernel

end SourceGauge.Scala
