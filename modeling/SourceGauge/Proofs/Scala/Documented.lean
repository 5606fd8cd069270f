import SourceGauge.Proofs.Scala.PublicApi
import SourceGauge.Scala.Lexer

/-! Public declarations that count as undocumented. Comments, modifiers and annotations may stand
between a doc comment and the declaration that it describes. The scan takes each of them whole, the
type arguments of an annotation apart: it reads those as code, and so forgets the doc comment. -/
namespace SourceGauge.Scala

/-- What may stand between a doc comment and the declaration that it describes. -/
inductive Lead
  | comment (t : Token)
  /-- A modifier, and its qualifier in brackets after some comments. -/
  | modifier (word : Token) (qualifier : Option (List Token × Group))
  /-- An at sign, a name, further parts of the name, each after a dot, and argument lists. -/
  | annot (mark name : Token) (parts : List (Token × Token))
      (typeArguments arguments : Option Group)
  /-- The word before `class` or `object` in a case class or case object. -/
  | typeCase (word : Token)
  deriving DecidableEq, Repr

namespace Lead

/-- The further parts of a name, each after its dot. -/
def furtherParts (parts : List (Token × Token)) : List Token := parts.flatMap fun p => [p.1, p.2]

def tokens : Lead → List Token
  | .comment t => [t]
  | .modifier word qualifier => word :: qualifier.elim [] fun q => q.1 ++ q.2.tokens
  | .annot mark name parts typeArguments arguments =>
    mark :: name ::
      (furtherParts parts ++ (Group.tokensOf typeArguments ++ Group.tokensOf arguments))
  | .typeCase word => [word]

/-- The last part of a name. -/
def lastName (name : Token) (parts : List (Token × Token)) : Token :=
  (parts.map Prod.snd).getLastD name

/-- The form of a lead before the tokens `rest`. The arguments of an annotation begin on the line
on which what stands before them ends. -/
def WellFormed (rest : List Token) : Lead → Prop
  | .comment t => t.isComment = true
  | .modifier word qualifier =>
    word.kind = .keyword ∧ Item.modifiers.contains word.text = true ∧
      ∀ q ∈ qualifier, Item.isHiding word = true ∧ (∀ t ∈ q.1, t.isComment = true) ∧
        q.2.IsOf ("[", "]")
  | .annot mark name parts typeArguments arguments =>
    mark.isPunct "@" = true ∧ Item.isName name = true ∧
      (∀ p ∈ parts, p.1.isPunct "." = true ∧ Item.isName p.2 = true) ∧
      (∀ g ∈ typeArguments, g.IsOf ("[", "]")) ∧
      ∀ g ∈ arguments, g.IsOf ("(", ")") ∧
        g.opening.start.line =
          ((typeArguments.map Group.closing).getD (lastName name parts)).stop.line
  | .typeCase word => word.isKeyword "case" = true ∧ Item.precedesType rest = true

def isDoc : Lead → Bool
  | .comment t => t.kind = .comment .doc
  | _ => false

/-- An annotation with type arguments. -/
def isTyped : Lead → Bool
  | .annot _ _ _ typeArguments _ => typeArguments.isSome
  | _ => false

/-- The leads before the tokens `rest` are well formed. -/
def Sequence (rest : List Token) : List Lead → Prop
  | [] => True
  | lead :: leads => lead.WellFormed (leads.flatMap tokens ++ rest) ∧ Sequence rest leads

theorem wellNested_of_comments {ts : List Token} (h : ∀ t ∈ ts, t.isComment = true) :
    WellNested ts := by
  induction ts with
  | nil => exact .nil
  | cons t ts ih =>
    obtain ⟨ht, hts⟩ := List.forall_mem_cons.1 h
    exact .cons (Token.not_delimiter_of_isComment ht) (ih hts)

theorem wellNested_group {d : String × String} (hd : d ∈ delimiters) {group : Option Group}
    (h : ∀ g ∈ group, g.IsOf d) : WellNested (Group.tokensOf group) := by
  cases group with
  | none => exact .nil
  | some g => exact (h g rfl).wellNested hd

theorem WellFormed.wellNested {lead : Lead} {rest : List Token} (h : lead.WellFormed rest) :
    WellNested lead.tokens := by
  cases lead with
  | comment t => exact .cons (Token.not_delimiter_of_isComment h) .nil
  | modifier word qualifier =>
    obtain ⟨hkind, -, hqualifier⟩ := h
    refine .cons (Token.not_delimiter_of_kind (by simp [hkind])) ?_
    cases qualifier with
    | none => exact .nil
    | some q =>
      obtain ⟨-, hcomments, hgroup⟩ := hqualifier q rfl
      exact (wellNested_of_comments hcomments).append (hgroup.wellNested (by decide))
  | annot mark name parts typeArguments arguments =>
    obtain ⟨hmark, hname, hparts, htypes, harguments⟩ := h
    refine .cons (Token.not_delimiter_of_isPunct hmark (by decide)) (.cons
      (Token.not_delimiter_of_isName hname) (.append (.flatMap fun p hp => ?_) (.append ?_ ?_)))
    · exact .cons (Token.not_delimiter_of_isPunct (hparts p hp).1 (by decide))
        (.cons (Token.not_delimiter_of_isName (hparts p hp).2) .nil)
    · exact wellNested_group (by decide) htypes
    · exact wellNested_group (by decide) fun g hg => (harguments g hg).1
  | typeCase word =>
    have hkind := (Token.isKeyword_iff.1 h.1).1
    exact .cons (Token.not_delimiter_of_kind (by simp [hkind])) .nil

theorem WellFormed.endsItem {lead : Lead} {rest : List Token} (h : lead.WellFormed rest)
    (hrest : Item.EndsItem rest) : Item.EndsItem (lead.tokens ++ rest) := by
  cases lead with
  | comment t => exact .comment h hrest
  | modifier word qualifier => exact .of_keyword h.1 _
  | annot mark name parts typeArguments arguments =>
    have hkind := (Token.isPunct_iff.1 h.1).1
    exact .of_not_comment (by simp [Token.isComment, hkind])
      (by simp [Token.isPunct_of_isPunct h.1]) _
  | typeCase word => exact .of_keyword (Token.isKeyword_iff.1 h.1).1 _

/-- Whether a doc comment counts after a lead, if it does so before. -/
def keepsDoc (lead : Lead) (documented : Bool) : Bool :=
  lead.isDoc || documented && !lead.isTyped

theorem qualifierLength_group {g : Group} (hg : g.IsOf ("[", "]")) {comments : List Token}
    (hcomments : ∀ t ∈ comments, t.isComment = true) (rest : List Token) :
    Item.qualifierLength (comments ++ g.tokens ++ rest) = (comments ++ g.tokens).length := by
  induction comments with
  | nil =>
    have hkind := (Token.isPunct_iff.1 hg.opening).1
    rw [List.nil_append, Group.tokens, List.cons_append,
      Item.qualifierLength_of_not_comment (by simp [Token.isComment, hkind]), hg.opening,
      if_pos rfl]
    exact hg.groupLength (by decide) rest
  | cons t comments ih =>
    obtain ⟨ht, hcomments⟩ := List.forall_mem_cons.1 hcomments
    rw [List.cons_append, List.cons_append, Item.qualifierLength_comment ht, ih hcomments, if_neg]
    · simp only [List.length_cons]
      omega
    · simp [Group.tokens]

theorem annotationTail_parts {parts : List (Token × Token)}
    (hparts : ∀ p ∈ parts, p.1.isPunct "." = true ∧ Item.isName p.2 = true) (name : Token)
    (rest : List Token) :
    Item.annotationTail name (furtherParts parts ++ rest) =
      (furtherParts parts).length + Item.annotationTail (lastName name parts) rest := by
  induction parts generalizing name with
  | nil => simp [furtherParts, lastName]
  | cons p parts ih =>
    obtain ⟨⟨hpoint, hname⟩, hparts⟩ := List.forall_mem_cons.1 hparts
    have hlast : lastName name (p :: parts) = lastName p.2 parts := List.getLastD_cons ..
    have hfurther : furtherParts (p :: parts) = p.1 :: p.2 :: furtherParts parts := rfl
    rw [hlast, hfurther, List.cons_append, List.cons_append, Item.annotationTail, hpoint, hname,
      ih hparts]
    simp
    omega

theorem annotationLength_name {name : Token} (hname : Item.isName name = true)
    {parts : List (Token × Token)}
    (hparts : ∀ p ∈ parts, p.1.isPunct "." = true ∧ Item.isName p.2 = true) {rest : List Token}
    (hpoint : ∀ t ∈ rest.head?, t.isPunct "." = false) :
    Item.annotationLength (name :: (furtherParts parts ++ rest)) =
      (name :: furtherParts parts).length + Item.argumentsLength (lastName name parts) rest := by
  rw [Item.annotationLength, if_pos hname, annotationTail_parts hparts,
    Item.annotationTail_of_not_point hpoint, List.length_cons]
  omega

/-- The reading of a lead: which items it gives, and what they do to the doc comment before it. -/
structure ReadsAs (lead : Lead) (rest : List Token) (items : List Item) : Prop where
  tokens : items.flatMap Item.tokens = lead.tokens
  ofTokens : Item.ofTokens (lead.tokens ++ rest) = items ++ Item.ofTokens rest
  documented : ∀ o : Outline,
    (items.foldl Outline.step o).documented = lead.keepsDoc o.documented

variable {rest : List Token}

theorem readsAs_comment {t : Token} (ht : t.isComment = true) :
    ReadsAs (.comment t) rest [.comment t] where
  tokens := rfl
  ofTokens := Item.ofTokens_cons_of_read (Item.read_comment ht rest)
  documented o := by
    simp only [List.foldl_cons, List.foldl_nil, Outline.step, keepsDoc, isDoc, isTyped]
    split <;> simp_all

theorem readsAs_typeCase {word : Token} (h : WellFormed rest (.typeCase word)) :
    ReadsAs (.typeCase word) rest [.typeCase word] where
  tokens := rfl
  ofTokens := by
    obtain ⟨hkind, hword⟩ := Token.isKeyword_iff.1 h.1
    apply Item.ofTokens_cons_of_read
    simp [Item.read, h.1, h.2, hkind, hword, Token.isComment, Token.isPunct, Item.modifiers]
  documented o := by simp [Outline.step, keepsDoc, isDoc, isTyped]

theorem readsAs_modifier {word : Token} {qualifier : Option (List Token × Group)}
    (h : WellFormed rest (.modifier word qualifier)) (hrest : Item.EndsItem rest) :
    ReadsAs (.modifier word qualifier) rest
      [.modifier word (qualifier.elim [] fun q => q.1 ++ q.2.tokens)] where
  tokens := by simp [Item.tokens, tokens]
  ofTokens := by
    obtain ⟨hkind, hword, hqualifier⟩ := h
    have hlength : (if Item.isHiding word then
          Item.qualifierLength (qualifier.elim [] (fun q => q.1 ++ q.2.tokens) ++ rest) else 0) =
        (qualifier.elim [] fun q => q.1 ++ q.2.tokens).length := by
      cases qualifier with
      | none =>
        split
        · exact hrest.not_qualifier
        · rfl
      | some q =>
        obtain ⟨hhiding, hcomments, hgroup⟩ := hqualifier q rfl
        rw [if_pos hhiding]
        exact qualifierLength_group hgroup hcomments rest
    apply Item.ofTokens_of_read
    simp only [Item.read, Token.isComment, Token.isPunct, hkind, hword, hlength, List.take_left]
    rfl
  documented o := by
    simp only [List.foldl_cons, List.foldl_nil, Outline.step, keepsDoc, isDoc, isTyped]
    split <;> simp

theorem argumentsLength_group {g : Group} (hg : g.IsOf ("(", ")")) {name : Token}
    (hline : g.opening.start.line = name.stop.line) (rest : List Token) :
    Item.argumentsLength name (g.tokens ++ rest) = g.tokens.length := by
  rw [← hg.groupLength (by decide) rest, Group.tokens, List.cons_append, Item.argumentsLength,
    hg.opening, hline]
  simp

/-- Without type arguments an annotation is taken whole. -/
theorem readsAs_annot {mark name : Token} {parts : List (Token × Token)}
    {arguments : Option Group} (h : WellFormed rest (.annot mark name parts none arguments))
    (hrest : Item.EndsItem rest) :
    ReadsAs (.annot mark name parts none arguments) rest
      [.annot (mark :: name :: (furtherParts parts ++ Group.tokensOf arguments))] where
  tokens := by simp [Item.tokens, tokens]
  ofTokens := by
    obtain ⟨hmark, hname, hparts, -, harguments⟩ := h
    apply Item.ofTokens_annot hmark
    rw [Group.tokensOf_none, List.nil_append, List.cons_append, List.append_assoc]
    cases arguments with
    | none =>
      rw [Group.tokensOf_none, List.nil_append, annotationLength_name hname hparts hrest.not_point,
        Item.argumentsLength_of_not_opening hrest.not_arguments, List.append_nil, Nat.add_zero]
    | some g =>
      have hgroup : g.IsOf ("(", ")") := (harguments g rfl).1
      have hline : g.opening.start.line = (lastName name parts).stop.line := (harguments g rfl).2
      have hpoint : ∀ t ∈ (g.tokens ++ rest).head?, t.isPunct "." = false := by
        simp [Group.tokens, Token.isPunct_of_isPunct hgroup.opening]
      rw [Group.tokensOf_some, annotationLength_name hname hparts hpoint,
        argumentsLength_group hgroup hline, ← List.length_append, List.cons_append]
  documented o := by simp [Outline.step, keepsDoc, isDoc, isTyped]

/-- Read as code, a group leaves no doc comment before what follows it. -/
theorem exists_items_group {d : String × String} (hd : d ∈ delimiters) {group : Option Group}
    (h : ∀ g ∈ group, g.IsOf d) (rest : List Token) :
    ∃ items, items.flatMap Item.tokens = Group.tokensOf group ∧
      Item.ofTokens (Group.tokensOf group ++ rest) = items ++ Item.ofTokens rest ∧
      ∀ o : Outline, (items.foldl Outline.step o).documented =
        (group.isNone && o.documented) := by
  cases group with
  | none => exact ⟨[], rfl, rfl, fun o => by simp⟩
  | some g =>
    obtain ⟨items, htokens, hitems⟩ := (h g rfl).ofTokens hd rest
    refine ⟨items ++ [Item.code g.closing], htokens, hitems, fun o => ?_⟩
    rw [List.foldl_concat]
    rfl

/-- With type arguments an annotation is taken as far as its name, and the rest of it is code. -/
theorem exists_readsAs_typed {mark name : Token} {parts : List (Token × Token)} {g : Group}
    {arguments : Option Group}
    (h : WellFormed rest (.annot mark name parts (some g) arguments)) :
    ∃ items, ReadsAs (.annot mark name parts (some g) arguments) rest items := by
  obtain ⟨hmark, hname, hparts, htypes, harguments⟩ := h
  have hgroup : g.IsOf ("[", "]") := htypes g rfl
  obtain ⟨arglist, hargtokens, hargitems, hargdoc⟩ :=
    exists_items_group (d := ("(", ")")) (by decide) (fun g hg => (harguments g hg).1) rest
  obtain ⟨types, htokens, hitems⟩ :=
    hgroup.ofTokens (by decide) (Group.tokensOf arguments ++ rest)
  refine ⟨.annot (mark :: name :: furtherParts parts) :: (types ++ [.code g.closing] ++ arglist),
    ?_, ?_, fun o => ?_⟩
  · rw [List.flatMap_cons, List.flatMap_append, htokens, hargtokens]
    simp [Item.tokens, tokens]
  · have hopening (mark : String) := Token.isPunct_of_isPunct hgroup.opening mark
    have hlength : Item.annotationLength (name :: furtherParts parts ++
        (g.tokens ++ (Group.tokensOf arguments ++ rest))) =
          (name :: furtherParts parts).length := by
      rw [List.cons_append, annotationLength_name hname hparts (by simp [Group.tokens, hopening]),
        Item.argumentsLength_of_not_opening (by simp [Group.tokens, hopening]), Nat.add_zero]
    have hread := Item.ofTokens_annot hmark hlength
    rw [hitems, hargitems] at hread
    simpa [tokens] using hread
  · simp [List.foldl_append, hargdoc, Outline.step, Outline.code, keepsDoc, isDoc, isTyped]

theorem WellFormed.exists_readsAs {lead : Lead} (h : lead.WellFormed rest)
    (hrest : Item.EndsItem rest) : ∃ items, ReadsAs lead rest items := by
  match lead with
  | .comment t => exact ⟨_, readsAs_comment h⟩
  | .modifier word qualifier => exact ⟨_, readsAs_modifier h hrest⟩
  | .annot mark name parts none arguments => exact ⟨_, readsAs_annot h hrest⟩
  | .annot mark name parts (some g) arguments => exact exists_readsAs_typed h
  | .typeCase word => exact ⟨_, readsAs_typeCase h⟩

variable {leads : List Lead}

theorem Sequence.endsItem (h : Sequence rest leads) (hrest : Item.EndsItem rest) :
    Item.EndsItem (leads.flatMap tokens ++ rest) := by
  induction leads with
  | nil => exact hrest
  | cons lead leads ih =>
    rw [List.flatMap_cons, List.append_assoc]
    exact h.1.endsItem (ih h.2)

theorem Sequence.wellNested (h : Sequence rest leads) : WellNested (leads.flatMap tokens) := by
  induction leads with
  | nil => exact .nil
  | cons lead leads ih =>
    rw [List.flatMap_cons]
    exact h.1.wellNested.append (ih h.2)

/-- Leads are read one by one, and each keeps or drops the doc comment before it. -/
theorem Sequence.exists_items (h : Sequence rest leads) (hrest : Item.EndsItem rest) :
    ∃ items, items.flatMap Item.tokens = leads.flatMap tokens ∧
      Item.ofTokens (leads.flatMap tokens ++ rest) = items ++ Item.ofTokens rest ∧
      ∀ o : Outline, (items.foldl Outline.step o).documented =
        leads.foldl (fun documented lead => lead.keepsDoc documented) o.documented := by
  induction leads with
  | nil => exact ⟨[], rfl, rfl, fun o => rfl⟩
  | cons lead leads ih =>
    obtain ⟨front, hfront⟩ := h.1.exists_readsAs (h.2.endsItem hrest)
    obtain ⟨back, htokens, hback, hdoc⟩ := ih h.2
    refine ⟨front ++ back, ?_, ?_, fun o => ?_⟩
    · rw [List.flatMap_append, List.flatMap_cons, hfront.tokens, htokens]
    · rw [List.flatMap_cons, List.append_assoc, hfront.ofTokens, hback, List.append_assoc]
    · rw [List.foldl_append, hdoc, hfront.documented, List.foldl_cons]

/-- After some leads a doc comment before them counts no more exactly when an annotation with type
arguments stands among them, and no doc comment after it. -/
theorem foldl_keepsDoc_eq_false :
    leads.foldl (fun documented lead => lead.keepsDoc documented) true = false ↔
      ∃ front lead back, leads = front ++ lead :: back ∧ lead.isTyped = true ∧
        ∀ later ∈ back, later.isDoc = false := by
  induction leads using List.reverseRecOn with
  | nil => simp
  | append_singleton leads last ih =>
    rw [List.foldl_concat, keepsDoc, Bool.or_eq_false_iff, Bool.and_eq_false_iff, ih]
    constructor
    · rintro ⟨hdoc, ⟨front, lead, back, rfl, htyped, hback⟩ | htyped⟩
      · refine ⟨front, lead, back ++ [last], by simp, htyped, ?_⟩
        simpa [or_imp, forall_and, hdoc] using hback
      · exact ⟨leads, last, [], rfl, by simpa using htyped, by simp⟩
    · rintro ⟨front, lead, back, hsplit, htyped, hback⟩
      rcases concat_eq_split.1 hsplit with ⟨-, rfl, -⟩ | ⟨mid, rfl, hleads⟩
      · refine ⟨?_, .inr (by simp [htyped])⟩
        cases last <;> simp_all [isTyped, isDoc]
      · refine ⟨hback last (by simp), .inl ⟨front, lead, mid, hleads, htyped, ?_⟩⟩
        exact fun later hlater => hback later (List.mem_append_left _ hlater)

end Lead

theorem ofTokens_declaration {decl : Token} (hkind : decl.kind = .keyword)
    (hword : Scan.declarations.contains decl.text = true) (post : List Token) :
    Item.ofTokens (decl :: post) = .code decl :: Item.ofTokens post := by
  have hwords : ∀ word ∈ Scan.declarations,
      Item.modifiers.contains word = false ∧ word ≠ "case" := by decide
  have hdecl : decl.isKeyword decl.text = true := Token.isKeyword_iff.2 ⟨hkind, rfl⟩
  exact Item.ofTokens_cons_of_read
    (Item.read_word hdecl (hwords decl.text (List.contains_iff_mem.1 hword)) post)

/-- After a doc comment, a public declaration before which only leads stand counts as undocumented
exactly when an annotation with type arguments stands among them, and no doc comment after it. -/
theorem undocumentedPlaces_after_doc {pre : List Token} {doc : Token} {leads : List Lead}
    {decl : Token} {post : List Token} (hdoc : doc.kind = .comment .doc)
    (hleads : Lead.Sequence (decl :: post) leads) (hkind : decl.kind = .keyword)
    (hword : Scan.declarations.contains decl.text = true) :
    let front := doc :: leads.flatMap Lead.tokens
    let tokens := pre ++ (front ++ decl :: post)
    let place := pre.length + front.length
    (CodeMetrics.ofTokens tokens).undocumentedPublicApi = (undocumentedPlaces tokens).card ∧
      (place ∈ undocumentedPlaces tokens ↔ place ∈ publicPlaces tokens ∧
        ∃ before lead after, leads = before ++ lead :: after ∧ lead.isTyped = true ∧
          ∀ later ∈ after, later.isDoc = false) := by
  intro front tokens place
  refine ⟨undocumentedPublicApi_eq_card tokens, ?_⟩
  rw [undocumentedPlaces, publicPlaces, Item.mem_places, Item.mem_places]
  have hcomment : doc.isComment = true := by simp [Token.isComment, hdoc]
  have hends := hleads.endsItem (.of_keyword hkind post)
  have hhalts : Item.Halts (front ++ decl :: post) :=
    ⟨.comment hcomment hends, by simp [front, Item.isName, hdoc]⟩
  have hnested : WellNested front :=
    .cons (Token.not_delimiter_of_isComment hcomment) hleads.wellNested
  -- A group that is open before the doc comment takes the declaration along with it.
  rcases Item.aligned_or_not_codeAt hnested hhalts pre with ⟨items, hpre, hitems⟩ | hinside
  · obtain ⟨leadItems, hleadTokens, hleadItems, hdocumented⟩ :=
      hleads.exists_items (.of_keyword hkind post)
    have hsplit : Item.ofTokens tokens =
        (items ++ .comment doc :: leadItems) ++ .code decl :: Item.ofTokens post := by
      rw [hitems, List.cons_append, Item.ofTokens_cons_of_read (Item.read_comment hcomment _),
        hleadItems, ofTokens_declaration hkind hword]
      simp
    have hplace : place = Item.size (items ++ .comment doc :: leadItems) := by
      simp [place, front, Item.size, hpre, hleadTokens, Item.tokens]
    have hne : ∀ item ∈ Item.ofTokens tokens, item.tokens ≠ [] :=
      fun item => Item.tokens_ne_nil_of_mem
    have hflag : (Outline.after (items ++ .comment doc :: leadItems)).documented =
        leads.foldl (fun documented lead => lead.keepsDoc documented) true := by
      rw [Outline.after, List.foldl_append, List.foldl_cons, hdocumented]
      simp [Outline.step, hdoc]
    rw [hsplit] at hne ⊢
    rw [hplace, Item.codeAt_append hne, Item.codeAt_append hne, Scan.adds_undocumented, hflag,
      Lead.foldl_keepsDoc_eq_false]
  · exact iff_of_false (hinside _) fun h => hinside _ h.1

/-- The doc comment stays with the declaration across a dotted annotation with arguments, a further
comment and a modifier. -/
theorem undocumentedPlaces_after_doc_note :
    let tokens := tokenize "/** doc */ @app.note(\"a\") /* b */ final def f = 1".toList
    10 ∈ publicPlaces tokens ∧ 10 ∉ undocumentedPlaces tokens := by
  intro tokens
  let token (kind : Token.Kind) (text : String) (first last : Nat) : Token :=
    ⟨kind, text, ⟨1, first⟩, ⟨1, last⟩⟩
  let doc := token (.comment .doc) "/** doc */" 0 10
  let arguments : Group :=
    ⟨token .punct "(" 20 21, [token .string "\"a\"" 21 24], token .punct ")" 24 25⟩
  let leads : List Lead :=
    [.annot (token .punct "@" 11 12) (token .ident "app" 12 15)
      [(token .punct "." 15 16, token .ident "note" 16 20)] none (some arguments),
      .comment (token (.comment .block) "/* b */" 26 33),
      .modifier (token .keyword "final" 34 39) none]
  let decl := token .keyword "def" 40 43
  let post := [token .ident "f" 44 45, token .operator "=" 46 47, token .number "1" 48 49]
  have htokens : tokens = doc :: (leads.flatMap Lead.tokens ++ decl :: post) := by decide +kernel
  have harguments : arguments.IsOf ("(", ")") :=
    ⟨by decide, .token (by decide) (by decide) .nil, by decide⟩
  have hleads : Lead.Sequence (decl :: post) leads :=
    ⟨⟨by decide, by decide, by simp [token, Token.isPunct, Item.isName], by simp,
      by simpa [Lead.lastName] using ⟨harguments, rfl⟩⟩, rfl, ⟨rfl, by decide, by simp⟩, trivial⟩
  have hpublic : 10 ∈ publicPlaces tokens := by
    rw [publicPlaces, Item.mem_places]
    refine ⟨(Item.ofTokens tokens).take 4, decl, (Item.ofTokens tokens).drop 5, ?_, ?_, ?_⟩
    · decide +kernel
    · decide +kernel
    · show _ < _
      decide +kernel
  have hplain : ∀ lead ∈ leads, lead.isTyped = false := by decide
  refine ⟨hpublic, fun hmem => ?_⟩
  rw [htokens] at hmem
  obtain ⟨-, before, lead, after, hsplit, htyped, -⟩ :=
    (@undocumentedPlaces_after_doc [] doc leads decl post rfl hleads rfl (by decide)).2.1 hmem
  rw [hplain lead (by simp [hsplit])] at htyped
  cases htyped

/-- The type arguments of an annotation take the doc comment away from the declaration. -/
theorem undocumentedPublicApi_throws :
    let tokens := tokenize "/** doc */ @throws[IOException](\"why\") def f = 1".toList
    (∃ doc leads decl post, tokens = doc :: (leads.flatMap Lead.tokens ++ decl :: post) ∧
      doc.kind = .comment .doc ∧ Lead.Sequence (decl :: post) leads ∧ decl.isKeyword "def" = true) ∧
    (CodeMetrics.ofTokens tokens).publicApi = 1 ∧
      (CodeMetrics.ofTokens tokens).undocumentedPublicApi = 1 := by
  intro tokens
  let token (kind : Token.Kind) (text : String) (first last : Nat) : Token :=
    ⟨kind, text, ⟨1, first⟩, ⟨1, last⟩⟩
  let doc := token (.comment .doc) "/** doc */" 0 10
  let types : Group :=
    ⟨token .punct "[" 18 19, [token .ident "IOException" 19 30], token .punct "]" 30 31⟩
  let arguments : Group :=
    ⟨token .punct "(" 31 32, [token .string "\"why\"" 32 37], token .punct ")" 37 38⟩
  let lead : Lead :=
    .annot (token .punct "@" 11 12) (token .ident "throws" 12 18) [] (some types)
      (some arguments)
  let decl := token .keyword "def" 39 42
  let post := [token .ident "f" 43 44, token .operator "=" 45 46, token .number "1" 47 48]
  have htypes : types.IsOf ("[", "]") := ⟨by decide, .token (by decide) (by decide) .nil, by decide⟩
  have harguments : arguments.IsOf ("(", ")") :=
    ⟨by decide, .token (by decide) (by decide) .nil, by decide⟩
  have hleads : Lead.Sequence (decl :: post) [lead] :=
    ⟨⟨by decide, by decide, by simp, by simpa using htypes, by simpa using ⟨harguments, rfl⟩⟩,
      trivial⟩
  refine ⟨⟨doc, [lead], decl, post, ?_, rfl, hleads, by decide⟩, ?_, ?_⟩
  all_goals decide +kernel

end SourceGauge.Scala
