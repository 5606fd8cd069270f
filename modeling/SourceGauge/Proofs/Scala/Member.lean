import SourceGauge.Proofs.Scala.Awaited
import SourceGauge.Scala.Lexer

/-! Members of types. A member is enclosed by bodies of type declarations only, and a body opens at
the end of the header of its declaration. The declarations that are counted are the members, as long
as no other brace opens while a type declaration waits for its body. -/
namespace SourceGauge.Scala

/-- The reserved words in the header of a type declaration, after its keyword. -/
def headerWords : List String := ["extends", "with", "forSome", "this", "super"]

/-- The operators that cannot stand in a header. -/
def bodyOperators : List String := ["=", "=>", "<-"]

/-- The words that a header cannot end with. -/
def leadingWords : List String := ["class", "object", "trait", "extends", "with", "forSome"]

/-- Such a token may stand in the header of a type declaration, outside its groups. -/
def isHeaderToken (t : Token) : Bool :=
  match t.kind with
  | .ident => true
  | .operator => !bodyOperators.contains t.text
  | .keyword => headerWords.contains t.text
  | .punct => t.text = "."
  | _ => false

/-- A header goes on after such a token, and across a line break before it. -/
def leadsOn (t : Token) : Bool :=
  t.isPunct "." || t.kind = .keyword && leadingWords.contains t.text

/-- No line break ends the header between two tokens. -/
def areJoined (last t : Token) : Bool := last.stop.line = t.start.line || leadsOn last || leadsOn t

/-- The delimiters of the groups in a header. -/
def headerDelimiters : List (String × String) := [("(", ")"), ("[", "]")]

theorem headerDelimiters_spec : ∀ d ∈ headerDelimiters, d ∈ delimiters ∧ d.1 ≠ "\x7b" := by decide

/-- What follows `pre` is a type declaration as far as its header has been read: its keyword, and
then names, parents and groups in parentheses or brackets. -/
inductive Header (pre : List Token) : List Token → Prop
  | keyword {t : Token} (ht : DeclaresType pre t) : Header pre [t]
  | token {header : List Token} {last t : Token} (h : Header pre (header ++ [last]))
      (ht : isHeaderToken t = true) (hjoined : areJoined last t = true) :
      Header pre (header ++ [last] ++ [t])
  | group {header : List Token} {d : String × String} {g : Group} (h : Header pre header)
      (hd : d ∈ headerDelimiters) (hg : g.IsOf d) : Header pre (header ++ g.tokens)

/-- A group at the end of the header, or on the line below, is the body of the type declaration. -/
def OpenGroup.IsBody (g : OpenGroup) : Prop :=
  ∃ pre header last, g.before = pre ++ (header ++ [last]) ∧ Header pre (header ++ [last]) ∧
    leadsOn last = false ∧ g.opening.start.line ≤ last.stop.line + 1

/-- The brace after the parameters of a type opens its body, whatever the parameters are. -/
theorem OpenGroup.isBody_of_parameters {pre : List Token} {word name : Token} {parameters : Group}
    (hword : DeclaresType pre word) (hname : name.kind = .ident)
    (hgroup : parameters.IsOf ("(", ")")) {brace : Token}
    (hline : brace.start.line ≤ parameters.closing.stop.line + 1) :
    OpenGroup.IsBody ⟨pre ++ ([word, name] ++ parameters.tokens), brace⟩ := by
  have hjoined : areJoined word name = true := by
    have hwords : ∀ w, Scan.isTypeWord w = true → leadingWords.contains w = true := by
      simp only [Scan.isTypeWord, Bool.or_eq_true, decide_eq_true_eq]
      rintro w ((rfl | rfl) | rfl) <;> decide
    simp only [areJoined, leadsOn, hword.keyword, hwords _ hword.type, decide_true, Bool.and_self,
      Bool.or_true, Bool.true_or]
  have hnamed : Header pre ([] ++ [word] ++ [name]) :=
    .token (.keyword hword) (by simp [isHeaderToken, hname]) hjoined
  have hheader : Header pre ([word, name] ++ parameters.tokens) :=
    .group (d := ("(", ")")) hnamed (by decide) hgroup
  have hlast : leadsOn parameters.closing = false := by
    have hkind := (Token.isPunct_iff.1 hgroup.closing).1
    simp [leadsOn, hkind, Token.isPunct_of_isPunct hgroup.closing]
  exact ⟨pre, word :: name :: parameters.opening :: parameters.inner, parameters.closing, rfl,
    hheader, hlast, hline⟩

/-- Each brace that opens while a type declaration waits for its body opens such a body. -/
def BracesAreBodies (code : List Token) : Prop :=
  ∀ (i : Nat) (brace : Token), code[i]? = some brace → brace.isPunct "\x7b" = true →
    AwaitsBody (code.take i) → OpenGroup.IsBody ⟨code.take i, brace⟩

theorem BracesAreBodies.isBody {code before : List Token} {brace : Token}
    (h : BracesAreBodies code) (hfront : before ++ [brace] <+: code)
    (hbrace : brace.isPunct "\x7b" = true) (hwait : AwaitsBody before) :
    OpenGroup.IsBody ⟨before, brace⟩ := by
  obtain ⟨rest, rfl⟩ := hfront
  have hbody := h before.length brace (by simp) hbrace
  rw [List.append_assoc, List.take_left] at hbody
  exact hbody hwait

theorem InParens.congr {xs ys : List Token} (h : InParens xs)
    (hgroups : openGroups ys = openGroups xs) : InParens ys := by
  rw [InParens, hgroups]
  exact h

section Delimiter
variable {d : String × String} {opening closing : Token}

theorem inParens_of_opening (hd : d ∈ delimiters) (h : opening.isPunct d.1 = true)
    (hbrace : opening.isPunct "\x7b" = false) (before : List Token) :
    InParens (before ++ [opening]) := by
  refine ⟨⟨before, opening⟩, ?_, hbrace⟩
  rw [openGroups_concat, (Token.isOpening_of_isPunct hd h).1]
  rfl

theorem not_brace_of_closing (hd : d ∈ delimiters) (h : closing.isPunct d.2 = true) :
    closing.isPunct "\x7b" = false :=
  Token.isPunct_of_not_isOpening (Token.isClosing_of_isPunct hd h).2
    (d := ("\x7b", "\x7d")) (by decide)

end Delimiter

theorem AwaitsBody.concat_of_inParens {before : List Token} {t : Token} (hwait : AwaitsBody before)
    (hparens : InParens before) (hbrace : t.isPunct "\x7b" = false) :
    AwaitsBody (before ++ [t]) := by
  refine awaitsBody_concat.2 (.inr ⟨hwait, ?_⟩)
  rintro (hopens | ⟨-, -, hout⟩ | hdeclares)
  · rw [hbrace] at hopens
    cases hopens
  · exact hout hparens
  · exact hdeclares.not_inParens hparens

theorem Header.wellNested {pre header : List Token} (h : Header pre header) :
    WellNested header := by
  induction h with
  | keyword ht =>
    exact .cons (Token.not_delimiter_of_kind (by simp [ht.keyword])) .nil
  | @token header last t _ ht _ ih =>
    refine ih.append (.cons ?_ .nil)
    by_cases hkind : t.kind = .punct
    · have hpoint : t.isPunct "." = true := by simpa [isHeaderToken, Token.isPunct, hkind] using ht
      exact Token.not_delimiter_of_isPunct hpoint (by decide)
    · exact Token.not_delimiter_of_kind hkind
  | group _ hd hg ih => exact ih.append (hg.wellNested (headerDelimiters_spec _ hd).1)

theorem Header.not_inParens {pre header : List Token} (h : Header pre header) : ¬ InParens pre := by
  induction h with
  | keyword ht => exact ht.not_inParens
  | token _ _ _ ih => exact ih
  | group _ _ _ ih => exact ih

theorem OpenGroup.IsBody.not_inParens {g : OpenGroup} (h : g.IsBody) : ¬ InParens g.before := by
  obtain ⟨pre, header, last, hbefore, hheader, -⟩ := h
  rw [hbefore, InParens, openGroups_append hheader.wellNested]
  exact hheader.not_inParens

/-- A wait goes on inside the parentheses of a header: a brace there would open a body, and no body
stands directly in parentheses. -/
theorem AwaitsBody.append_of_inParens {code : List Token} (hcode : BracesAreBodies code)
    {inner : List Token} (hinner : WellNested inner) {before : List Token}
    (hfront : before ++ inner <+: code) (hwait : AwaitsBody before)
    (hparens : InParens before) : AwaitsBody (before ++ inner) := by
  induction hinner generalizing before with
  | nil => rwa [List.append_nil]
  | @token t ts hopening hclosing _ ih =>
    have hbrace : t.isPunct "\x7b" = false :=
      Token.isPunct_of_not_isOpening hopening (d := ("\x7b", "\x7d")) (by decide)
    rw [List.append_cons] at hfront ⊢
    refine ih hfront (hwait.concat_of_inParens hparens hbrace) (hparens.congr ?_)
    exact openGroups_append (.token hopening hclosing .nil) before
  | @group o c d inner ts hd hopening hclosing hinner _ ihinner ihrest =>
    have hbrace : o.isPunct "\x7b" = false := by
      by_contra ho
      have hbody := hcode.isBody (.trans ⟨_, List.append_assoc ..⟩ hfront)
        (Bool.not_eq_false _ ▸ ho) hwait
      exact hbody.not_inParens hparens
    have hopened := inParens_of_opening hd hopening hbrace before
    have hinside : AwaitsBody (before ++ [o] ++ inner) :=
      ihinner (.trans ⟨c :: ts, by simp⟩ hfront) (hwait.concat_of_inParens hparens hbrace) hopened
    have hclosed : AwaitsBody (before ++ [o] ++ inner ++ [c]) :=
      hinside.concat_of_inParens (hopened.congr (openGroups_append hinner _))
        (not_brace_of_closing hd hclosing)
    -- After the group the same groups are open as before it.
    have hgroups : openGroups (before ++ [o] ++ inner ++ [c]) = openGroups before := by
      have hgroup : before ++ [o] ++ inner ++ [c] = before ++ o :: (inner ++ [c]) := by simp
      rw [hgroup]
      exact openGroups_append (.group hd hopening hclosing hinner .nil) before
    have hrest := ihrest (.trans ⟨[], by simp⟩ hfront) hclosed (hparens.congr hgroups)
    simpa using hrest

theorem not_endsWait_of_paren {before : List Token} {t : Token} {mark : String}
    (h : t.isPunct mark = true) (hmark : mark ≠ "\x7b") : ¬ EndsWait before t := by
  have hkind := (Token.isPunct_iff.1 h).1
  rintro (hbrace | ⟨hoperator, -⟩ | hdeclares)
  · rw [Token.isPunct_of_isPunct h] at hbrace
    exact hmark (of_decide_eq_true hbrace)
  · exact nomatch hkind.symm.trans hoperator
  · exact nomatch hkind.symm.trans hdeclares.keyword

theorem not_endsWait_of_isHeaderToken {before : List Token} {t : Token}
    (h : isHeaderToken t = true) : ¬ EndsWait before t := by
  have hwords : ∀ word ∈ Scan.declarations, headerWords.contains word = false := by decide
  rintro (hbrace | ⟨hkind, htext, -⟩ | hdeclares)
  · simp [isHeaderToken, Token.isPunct_iff.1 hbrace] at h
  · simp [isHeaderToken, hkind, htext, bodyOperators] at h
  · rw [isHeaderToken, hdeclares.keyword] at h
    exact absurd h (Bool.eq_false_iff.1 (hwords _ (List.contains_iff_mem.1 hdeclares.word)))

/-- A type declaration waits for its body as far as its header goes. -/
theorem Header.awaitsBody {code : List Token} (hcode : BracesAreBodies code)
    {pre header : List Token} (h : Header pre header) (hfront : pre ++ header <+: code) :
    AwaitsBody (pre ++ header) := by
  induction h with
  | keyword ht => exact awaitsBody_concat.2 (.inl ht)
  | @token header last t _ ht _ ih =>
    rw [← List.append_assoc] at hfront ⊢
    have hwait := ih (.trans ⟨[t], rfl⟩ hfront)
    exact awaitsBody_concat.2 (.inr ⟨hwait, not_endsWait_of_isHeaderToken ht⟩)
  | @group header d g _ hd hg ih =>
    obtain ⟨hdelimiter, hparens⟩ := headerDelimiters_spec d hd
    have hbrace : g.opening.isPunct "\x7b" = false := by
      rw [Token.isPunct_of_isPunct hg.opening]
      exact decide_eq_false hparens
    have hwait := ih (.trans ⟨g.tokens, by simp⟩ hfront)
    have hopened : AwaitsBody (pre ++ header ++ [g.opening]) :=
      awaitsBody_concat.2 (.inr ⟨hwait, not_endsWait_of_paren hg.opening hparens⟩)
    have hinParens := inParens_of_opening hdelimiter hg.opening hbrace (pre ++ header)
    have hinside := hopened.append_of_inParens hcode hg.inner
      (.trans ⟨[g.closing], by simp [Group.tokens]⟩ hfront) hinParens
    have hclosed := hinside.concat_of_inParens (hinParens.congr (openGroups_append hg.inner _))
      (not_brace_of_closing hdelimiter hg.closing)
    simpa [Group.tokens] using hclosed

/-- What may stand between a modifier and the declaration that it belongs to: comments, modifiers
and annotations, also those whose type arguments and arguments are read as code. -/
inductive Gap : List Item → Prop
  | nil : Gap []
  | item {item : Item} {rest : List Item} (hitem : codeTokens [item] = []) (hrest : Gap rest) :
      Gap (item :: rest)
  | typed {span : List Token} {types arguments rest : List Item} {g : Group}
      (hg : g.IsOf ("[", "]")) (htypes : types.flatMap Item.tokens = g.tokens)
      (harguments : arguments = [] ∨
        ∃ g' : Group, g'.IsOf ("(", ")") ∧ arguments.flatMap Item.tokens = g'.tokens)
      (hrest : Gap rest) : Gap (.annot span :: (types ++ (arguments ++ rest)))

/-- A hiding modifier belongs to what follows. -/
def IsHidden (items : List Item) : Prop :=
  ∃ front word qualifier back, items = front ++ .modifier word qualifier :: back ∧
    Item.isHiding word = true ∧ Gap back

/-- No annotation leaves type arguments behind. -/
def AnnotationsAreWhole (items : List Item) : Prop :=
  ∀ front span back, items = front ++ .annot span :: back →
    ∀ t ∈ (back.flatMap Item.tokens).head?, t.isPunct "[" = false

theorem gap_of_codeTokens_eq_nil {items : List Item} (h : codeTokens items = []) : Gap items := by
  induction items with
  | nil => exact .nil
  | cons item items ih =>
    rw [← List.singleton_append, codeTokens_append, List.append_eq_nil_iff] at h
    exact .item h.1 (ih h.2)

theorem Gap.codeTokens_eq_nil {back : List Item} (h : Gap back) (front after : List Item)
    (hwhole : AnnotationsAreWhole (front ++ (back ++ after))) : codeTokens back = [] := by
  induction h generalizing front with
  | nil => rfl
  | @item item rest hitem _ ih =>
    have hrest : codeTokens rest = [] := ih (front ++ [item]) (by simpa using hwhole)
    rw [← List.singleton_append, codeTokens_append, hitem, hrest]
    rfl
  | @typed span types arguments rest g hg htypes _ _ _ =>
    have hopening := hwhole front span (types ++ (arguments ++ rest) ++ after) rfl g.opening
      (by simp [List.flatMap_append, htypes, Group.tokens])
    rw [hg.opening] at hopening
    cases hopening

theorem hiddenAfter_iff_isHidden {before after : List Item}
    (hwhole : AnnotationsAreWhole (before ++ after)) : HiddenAfter before ↔ IsHidden before := by
  constructor
  · rintro ⟨front, word, qualifier, back, rfl, hword, hback⟩
    exact ⟨front, word, qualifier, back, rfl, hword, gap_of_codeTokens_eq_nil hback⟩
  · rintro ⟨front, word, qualifier, back, rfl, hword, hback⟩
    refine ⟨front, word, qualifier, back, rfl, hword, ?_⟩
    exact hback.codeTokens_eq_nil (front ++ [.modifier word qualifier]) after
      (by simpa using hwhole)

/-- Where each awaited brace opens a body, what is counted are the members of types. -/
theorem isMember_iff {items before after : List Item} {t : Token}
    (hcode : BracesAreBodies (codeTokens items)) (hwhole : AnnotationsAreWhole items)
    (hsplit : items = before ++ .code t :: after) :
    IsMember HiddenAfter OpenGroup.IsAwaited before t ↔
      IsMember IsHidden OpenGroup.IsBody before t := by
  have hhidden : HiddenAfter before ↔ IsHidden before := hiddenAfter_iff_isHidden (hsplit ▸ hwhole)
  have hfront : codeTokens before <+: codeTokens items := by
    rw [hsplit, codeTokens_append]
    exact List.prefix_append ..
  have hbrace {g : OpenGroup} (hg : g ∈ openGroups (codeTokens before)) :
      g.before ++ [g.opening] <+: codeTokens items := by
    obtain ⟨rest, hrest⟩ := eq_append_of_mem_openGroups hg
    exact .trans ⟨rest, by simp [hrest]⟩ hfront
  constructor
  · intro h
    refine ⟨h.keyword, h.word, h.not_selected, mt hhidden.2 h.not_hidden, fun g hg => ?_⟩
    obtain ⟨hopens, hwait⟩ := h.enclosed g hg
    exact ⟨hopens, hcode.isBody (hbrace hg) hopens hwait⟩
  · intro h
    refine ⟨h.keyword, h.word, h.not_selected, mt hhidden.1 h.not_hidden, fun g hg => ?_⟩
    obtain ⟨hopens, pre, header, last, hbefore, hheader, -⟩ := h.enclosed g hg
    have hpre := hbrace hg
    rw [hbefore] at hpre
    refine ⟨hopens, ?_⟩
    rw [OpenGroup.IsAwaited, hbefore]
    exact hheader.awaitsBody hcode (.trans ⟨[g.opening], rfl⟩ hpre)

/-- The public declarations that are counted are the members of whatever braces open while a type
declaration waits for its body. These are the members of types where each such brace opens a body
and no annotation has type arguments. -/
theorem publicApi_eq_card_members (tokens : List Token) :
    let items := Item.ofTokens tokens
    (CodeMetrics.ofTokens tokens).publicApi =
        (Item.places (IsMember HiddenAfter OpenGroup.IsAwaited) items).card ∧
      (BracesAreBodies (codeTokens items) → AnnotationsAreWhole items →
        (CodeMetrics.ofTokens tokens).publicApi =
          (Item.places (IsMember IsHidden OpenGroup.IsBody) items).card) := by
  intro items
  have hcount : (CodeMetrics.ofTokens tokens).publicApi =
      (Item.places (IsMember HiddenAfter OpenGroup.IsAwaited) items).card := by
    rw [publicApi_eq_card, publicPlaces]
    exact congrArg Finset.card (Item.places_congr fun _ _ _ _ => adds_publicApi_iff)
  refine ⟨hcount, fun hcode hwhole => hcount.trans ?_⟩
  exact congrArg Finset.card
    (Item.places_congr fun _ _ _ => isMember_iff hcode hwhole)

/-- A class with a default argument, and its member, are counted. -/
theorem publicApi_eq_card_members_default :
    let tokens := tokenize "class C(x: Int = 1) \x7b def g = 1 \x7d".toList
    (CodeMetrics.ofTokens tokens).publicApi = 2 ∧
      (Item.places (IsMember IsHidden OpenGroup.IsBody) (Item.ofTokens tokens)).card = 2 := by
  intro tokens
  let token (kind : Token.Kind) (text : String) (first last : Nat) : Token :=
    ⟨kind, text, ⟨1, first⟩, ⟨1, last⟩⟩
  let word := token .keyword "class" 0 5
  let name := token .ident "C" 6 7
  let parameters : Group :=
    ⟨token .punct "(" 7 8, [token .ident "x" 8 9, token .operator ":" 9 10,
      token .ident "Int" 11 14, token .operator "=" 15 16, token .number "1" 17 18],
      token .punct ")" 18 19⟩
  let header := [word, name] ++ parameters.tokens
  let brace := token .punct "\x7b" 20 21
  let body := [token .keyword "def" 22 25, token .ident "g" 26 27, token .operator "=" 28 29,
    token .number "1" 30 31, token .punct "\x7d" 32 33]
  have hitems : Item.ofTokens tokens = (header ++ brace :: body).map .code := by decide +kernel
  have hcode : codeTokens (Item.ofTokens tokens) = header ++ brace :: body := by
    rw [hitems]
    rfl
  have hwhole : AnnotationsAreWhole (Item.ofTokens tokens) := by
    intro front span back hsplit
    have hmem : Item.annot span ∈ Item.ofTokens tokens := by simp [hsplit]
    simp [hitems] at hmem
  have hword : DeclaresType [] word :=
    ⟨⟨rfl, by decide, by simp, fun ⟨g, hg, _⟩ => by cases hg⟩, by decide⟩
  have hparameters : parameters.IsOf ("(", ")") := by
    refine ⟨by decide, ?_, by decide⟩
    iterate 5 refine .cons (by decide) ?_
    exact .nil
  have hbody : OpenGroup.IsBody ⟨header, brace⟩ :=
    OpenGroup.isBody_of_parameters hword rfl hparameters (by decide)
  have hbraces : BracesAreBodies (codeTokens (Item.ofTokens tokens)) := by
    rw [hcode]
    intro i t ht hopens _
    have honly : ∀ i : Fin 15, ((header ++ brace :: body)[i.val]?).any (·.isPunct "\x7b") = true →
        i.val = 9 := by decide
    have hi : i < 15 := (List.getElem?_eq_some_iff.1 ht).1
    obtain rfl : i = 9 := honly ⟨i, hi⟩ (by rw [ht]; exact hopens)
    obtain rfl : brace = t := Option.some.inj ht
    exact hbody
  have hcount : (CodeMetrics.ofTokens tokens).publicApi = 2 := by decide +kernel
  exact ⟨hcount, ((publicApi_eq_card_members tokens).2 hbraces hwhole).symm.trans hcount⟩

/-- A brace in the parameters of a class takes its body away from it: the member counts no more. -/
theorem publicApi_lt_card_members_block :
    let tokens := tokenize "class C(x: Int = \x7b 1 \x7d) \x7b def g = 1 \x7d".toList
    (CodeMetrics.ofTokens tokens).publicApi = 1 ∧
      2 ≤ (Item.places (IsMember IsHidden OpenGroup.IsBody) (Item.ofTokens tokens)).card := by
  intro tokens
  let token (kind : Token.Kind) (text : String) (first last : Nat) : Token :=
    ⟨kind, text, ⟨1, first⟩, ⟨1, last⟩⟩
  let word := token .keyword "class" 0 5
  let name := token .ident "C" 6 7
  let block : Group := ⟨token .punct "\x7b" 17 18, [token .number "1" 19 20],
    token .punct "\x7d" 21 22⟩
  let parameters : Group :=
    ⟨token .punct "(" 7 8, [token .ident "x" 8 9, token .operator ":" 9 10,
      token .ident "Int" 11 14, token .operator "=" 15 16] ++ block.tokens, token .punct ")" 22 23⟩
  let header := [word, name] ++ parameters.tokens
  let brace := token .punct "\x7b" 24 25
  let decl := token .keyword "def" 26 29
  let rest := [token .ident "g" 30 31, token .operator "=" 32 33, token .number "1" 34 35,
    token .punct "\x7d" 36 37]
  have hitems : Item.ofTokens tokens = (header ++ brace :: decl :: rest).map .code := by
    decide +kernel
  have hword : DeclaresType [] word :=
    ⟨⟨rfl, by decide, by simp, fun ⟨g, hg, _⟩ => by cases hg⟩, by decide⟩
  have hblock : block.IsOf ("\x7b", "\x7d") := ⟨by decide, .cons (by decide) .nil, by decide⟩
  have hparameters : parameters.IsOf ("(", ")") := by
    refine ⟨by decide, ?_, by decide⟩
    iterate 4 refine .cons (by decide) ?_
    exact hblock.wellNested (by decide)
  have hbody : OpenGroup.IsBody ⟨header, brace⟩ :=
    OpenGroup.isBody_of_parameters hword rfl hparameters (by decide)
  have hshown (code : List Token) : ¬ IsHidden (code.map .code) := by
    rintro ⟨front, modifier, qualifier, back, hsplit, -⟩
    have hmem : Item.modifier modifier qualifier ∈ code.map .code := by simp [hsplit]
    simp at hmem
  have hclass : 0 ∈ Item.places (IsMember IsHidden OpenGroup.IsBody) (Item.ofTokens tokens) := by
    refine Item.mem_places.2 ⟨[], word, _, hitems, rfl, rfl, by decide, ?_, hshown [], ?_⟩
    · simp [codeTokens]
    · simp [codeTokens, openGroups, openGroupsFrom]
  have hmember : 12 ∈ Item.places (IsMember IsHidden OpenGroup.IsBody) (Item.ofTokens tokens) := by
    have hgroups : openGroups (codeTokens ((header ++ [brace]).map .code)) = [⟨header, brace⟩] := by
      decide
    refine Item.mem_places.2 ⟨(header ++ [brace]).map .code, decl, rest.map .code, hitems, rfl, rfl,
      by decide, by decide, hshown _, ?_⟩
    rw [hgroups]
    simpa using ⟨by decide, hbody⟩
  refine ⟨by decide +kernel, ?_⟩
  exact Finset.card_le_card (Finset.insert_subset hclass (Finset.singleton_subset_iff.2 hmember))

end SourceGauge.Scala
