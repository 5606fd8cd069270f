import Mathlib
import SourceGauge.Proofs.Scala.Reach
import SourceGauge.Scala.Lexer

/-! Where the documentation of a declaration comes from. The scan remembers a doc comment only as
long as it reads no code, so the comment stands before the declaration, and no two declarations
share it. -/
namespace SourceGauge.Scala

/-- A token that may stand between a doc comment and the declaration, before the tokens `rest`. -/
inductive Token.IsLead (t : Token) (rest : List Token) : Prop
  | comment (h : t.isComment = true)
  | annot (h : t.isPunct "@" = true)
  | modifier (hkind : t.kind = .keyword) (hword : Item.modifiers.contains t.text = true)
  | typeCase (hword : t.isKeyword "case" = true) (htype : Item.precedesType rest = true)

/-- At `doc` stands a doc comment, and between it and `place` only comments, modifiers with their
qualifiers, annotations and the word of a case class or case object. -/
structure Documents (tokens : List Token) (doc place : Nat) : Prop where
  lt : doc < place
  reached : Reached tokens doc
  isDoc : ∃ t ∈ tokens[doc]?, t.kind = .comment .doc
  between : ∀ (front : List Token) (t : Token) (rest : List Token),
    tokens = front ++ t :: rest → doc < front.length →
    front.length < place →
      t.IsLead rest ∨ InAnnot tokens front.length ∨ InQualifier tokens front.length

/-- What may stand before a declaration is what is not read as code. -/
theorem Token.isLead_iff {t : Token} {rest : List Token} :
    t.IsLead rest ↔ ∀ c, (Item.read t rest).1 ≠ .code c := by
  constructor
  · intro h
    cases h with
    | comment h => simp [Item.read, h]
    | annot h =>
      have hcomment : t.isComment = false := by simp [isComment, (isPunct_iff.1 h).1]
      simp [Item.read, hcomment, h]
    | modifier hkind hword =>
      simp only [Item.read, isComment, isPunct, hkind, hword]
      simp
    | typeCase hword htype =>
      obtain ⟨hkind, htext⟩ := isKeyword_iff.1 hword
      simp [Item.read, isComment, isPunct, isKeyword, hkind, htext, htype, Item.modifiers]
  · intro h
    unfold Item.read at h
    split at h
    case isTrue hcomment => exact .comment hcomment
    split at h
    case isTrue hmark => exact .annot hmark
    split at h
    case isTrue hword =>
      obtain ⟨hkind, hword⟩ := Bool.and_eq_true_iff.1 hword
      exact .modifier (of_decide_eq_true hkind) hword
    split at h
    case isTrue hword =>
      obtain ⟨hword, htype⟩ := Bool.and_eq_true_iff.1 hword
      exact .typeCase hword htype
    case isFalse => exact absurd rfl (h t)

/-- The doc comment that the scan remembers, and what it has read since. -/
theorem documented_after_iff {items : List Item} :
    (Outline.after items).documented = true ↔
      ∃ front comment leads, items = front ++ Item.comment comment :: leads ∧
        comment.kind = .comment .doc ∧ codeTokens leads = [] := by
  induction items using List.reverseRecOn with
  | nil => simp [Outline.after]
  | append_singleton items item ih =>
    rw [Outline.after_concat]
    constructor
    · intro h
      have hearlier (hitem : codeTokens [item] = [])
          (hdocumented : (Outline.after items).documented = true) :
          ∃ front comment leads, items ++ [item] = front ++ Item.comment comment :: leads ∧
            comment.kind = .comment .doc ∧ codeTokens leads = [] := by
        obtain ⟨front, comment, leads, rfl, hdoc, hleads⟩ := ih.1 hdocumented
        refine ⟨front, comment, leads ++ [item], by simp, hdoc, ?_⟩
        rw [codeTokens_append, hleads, hitem]
        rfl
      cases item with
      | code t => simp [Outline.step, Outline.code] at h
      | comment t =>
        by_cases hdoc : t.kind = .comment .doc
        · exact ⟨items, t, [], rfl, hdoc, rfl⟩
        · rw [Outline.step, if_neg hdoc] at h
          exact hearlier rfl h
      | modifier word qualifier =>
        rw [Outline.step] at h
        split at h <;> exact hearlier rfl h
      | annot span => exact hearlier rfl h
      | typeCase t => exact hearlier rfl h
    · rintro ⟨front, comment, leads, hsplit, hdoc, hleads⟩
      rcases concat_eq_split.1 hsplit with ⟨-, rfl, -⟩ | ⟨mid, rfl, hitems⟩
      · simp [Outline.step, hdoc]
      rw [codeTokens_append, List.append_eq_nil_iff] at hleads
      have hbefore := ih.2 ⟨front, comment, mid, hitems, hdoc, hleads.1⟩
      cases item with
      | code t => simp [codeTokens] at hleads
      | comment t =>
        rw [Outline.step]
        split <;> simp [hbefore]
      | modifier word qualifier =>
        rw [Outline.step]
        split <;> exact hbefore
      | annot span => exact hbefore
      | typeCase t => exact hbefore

section Places
variable {tokens : List Token} {before after : List Item} {t : Token}

/-- The code token behind some items is read as code where it stands. -/
theorem exists_read_code (h : Item.ofTokens tokens = before ++ Item.code t :: after) :
    ∃ rest, tokens = before.flatMap Item.tokens ++ t :: rest ∧ (Item.read t rest).1 = .code t ∧
      Reached tokens (Item.size before) := by
  obtain ⟨htokens, hback⟩ := Item.ofTokens_of_append h
  refine ⟨after.flatMap Item.tokens, htokens, ?_, before, _, after, h, rfl⟩
  rw [List.flatMap_cons, Item.tokens, List.singleton_append, Item.ofTokens] at hback
  exact (List.cons.inj hback).1

/-- A code token is not passed over, and is no lead. -/
theorem Documents.not_between {doc place : Nat} (hdocuments : Documents tokens doc place)
    (h : Item.ofTokens tokens = before ++ Item.code t :: after) (hlt : doc < Item.size before) :
    place ≤ Item.size before := by
  by_contra hplace
  obtain ⟨rest, htokens, hread, hreached⟩ := exists_read_code h
  have hsize : Item.size before < tokens.length := by
    rw [htokens, List.length_append, List.length_cons, Item.size]
    omega
  rcases hdocuments.between _ t rest htokens hlt (Nat.lt_of_not_le hplace) with hlead | hpassed
  · exact Token.isLead_iff.1 hlead t hread
  · exact (not_reached_iff hsize).2 hpassed hreached

/-- Between the doc comment that is remembered and the next code token stand leads. -/
theorem documents_of_items {front leads : List Item} {comment : Token}
    (h : Item.ofTokens tokens = front ++ Item.comment comment :: leads ++ Item.code t :: after)
    (hdoc : comment.kind = .comment .doc) (hleads : codeTokens leads = []) :
    Documents tokens (Item.size front) (Item.size (front ++ Item.comment comment :: leads)) := by
  have hback : Item.ofTokens tokens =
      front ++ Item.comment comment :: (leads ++ Item.code t :: after) := by
    simpa using h
  obtain ⟨htokens, -⟩ := Item.ofTokens_of_append hback
  refine ⟨by simp [Item.tokens], ⟨front, _, _, hback, rfl⟩, ⟨comment, ?_, hdoc⟩, ?_⟩
  · rw [htokens, Item.size]
    simp [Item.tokens]
  · intro before u rest hsplit hlt hplace
    rw [or_iff_not_imp_right]
    intro hpassed
    have hlength : before.length < tokens.length := by simp [hsplit]
    rw [← not_reached_iff hlength, not_not] at hpassed
    subst hsplit
    obtain ⟨earlier, later, hitems, rfl⟩ := hpassed.exists_items
    -- The item that begins there is one of the leads.
    obtain ⟨zs, rfl⟩ := Item.exists_append_of_size_lt (hback.symm.trans hitems) hlt
    obtain ⟨ws, hws⟩ := Item.exists_append_of_size_lt (hitems.symm.trans h) hplace
    rw [List.append_assoc, List.cons_append] at hws
    obtain rfl := (List.cons.inj (List.append_cancel_left hws)).2
    rw [Token.isLead_iff]
    intro c hc
    rw [hc, codeTokens_append] at hleads
    simp [codeTokens] at hleads

/-- A declaration is documented when a doc comment stands before it, with leads in between. -/
theorem documented_iff_documents (h : Item.ofTokens tokens = before ++ Item.code t :: after) :
    (Outline.after before).documented = true ↔
      ∃ doc, Documents tokens doc (Item.size before) := by
  rw [documented_after_iff]
  constructor
  · rintro ⟨front, comment, leads, rfl, hdoc, hleads⟩
    exact ⟨_, documents_of_items h hdoc hleads⟩
  · rintro ⟨doc, hdocuments⟩
    obtain ⟨comment, hcomment, hdoc⟩ := hdocuments.isDoc
    obtain ⟨hlength, hget⟩ := List.getElem?_eq_some_iff.1 hcomment
    have hsplit : tokens = tokens.take doc ++ comment :: tokens.drop (doc + 1) := by
      simp [← hget]
    have hreached := hdocuments.reached
    have hdocLength : (tokens.take doc).length = doc := by
      rw [List.length_take]
      omega
    generalize tokens.take doc = front at hsplit hdocLength
    generalize tokens.drop (doc + 1) = rest at hsplit
    subst hsplit hdocLength
    obtain ⟨earlier, later, hitems, rfl⟩ := hreached.exists_items
    have hread : Item.read comment rest = (.comment comment, 0) :=
      Item.read_comment (by simp [Token.isComment, hdoc]) rest
    rw [hread] at hitems
    obtain ⟨leads, rfl⟩ := Item.exists_append_of_size_lt (hitems.symm.trans h) hdocuments.lt
    refine ⟨earlier, comment, leads, rfl, hdoc, ?_⟩
    by_contra hcode
    obtain ⟨c, hc⟩ := List.exists_mem_of_ne_nil _ hcode
    obtain ⟨item, hitem, hcode⟩ := List.mem_filterMap.1 hc
    cases item with
    | code u =>
      obtain ⟨front, back, rfl⟩ := List.append_of_mem hitem
      have hsplit : Item.ofTokens (earlier.flatMap Item.tokens ++ comment :: rest) =
          (earlier ++ Item.comment comment :: front) ++
            Item.code u :: (back ++ Item.code t :: after) := by
        rw [h]
        simp
      have hle := hdocuments.not_between hsplit (by simp [Item.size, Item.tokens])
      simp [Item.tokens] at hle
    | _ => cases hcode

end Places

/-- Each doc comment accounts for one documented declaration at most. -/
theorem publicApi_add_documented_le (items : List Item) :
    (Outline.after items).publicApi + (Outline.after items).documented.toNat ≤
      (Outline.after items).undocumented +
        (items.flatMap Item.tokens).countP (·.kind = .comment .doc) := by
  induction items using List.reverseRecOn with
  | nil => exact Nat.zero_le _
  | append_singleton items item ih =>
    rw [Outline.after_concat, List.flatMap_append, List.countP_append, List.flatMap_singleton]
    generalize Outline.after items = o at ih ⊢
    cases item with
    | code t =>
      simp only [Outline.step, Outline.code]
      cases o.declares t && o.isPublic <;> cases hdoc : o.documented <;> simp [hdoc] at ih ⊢ <;>
        omega
    | comment t =>
      rw [Outline.step]
      split
      case isTrue hdoc =>
        have hcount : [t].countP (·.kind = .comment .doc) = 1 := by simp [hdoc]
        rw [Item.tokens, hcount]
        dsimp only [Bool.toNat_true]
        omega
      case isFalse => omega
    | modifier word qualifier =>
      rw [Outline.step]
      split
      · dsimp only
        omega
      · omega
    | annot span =>
      rw [Outline.step]
      omega
    | typeCase t =>
      rw [Outline.step]
      omega

/-- The declarations that are not documented are among the public ones. -/
theorem undocumentedPlaces_subset (tokens : List Token) :
    undocumentedPlaces tokens ⊆ publicPlaces tokens := by
  intro place hplace
  obtain ⟨before, t, after, hitems, hsize, hadds⟩ := Item.mem_places.1 hplace
  exact Item.mem_places.2 ⟨before, t, after, hitems, hsize, (Scan.adds_undocumented.1 hadds).1⟩

/-- Documentation does not leak. A public declaration counts as documented exactly when a doc
comment stands before it with nothing but comments, modifiers, annotations and the word of a case
class or case object in between. No doc comment documents two declarations, so there are no more
documented declarations than doc comments. -/
theorem documented_declarations (tokens : List Token) :
    let metrics := CodeMetrics.ofTokens tokens
    (∀ place ∈ publicPlaces tokens,
      place ∉ undocumentedPlaces tokens ↔ ∃ doc, Documents tokens doc place) ∧
      (∀ doc, ∀ p ∈ publicPlaces tokens, ∀ q ∈ publicPlaces tokens,
        Documents tokens doc p → Documents tokens doc q → p = q) ∧
      metrics.publicApi - metrics.undocumentedPublicApi =
        (publicPlaces tokens \ undocumentedPlaces tokens).card ∧
      metrics.undocumentedPublicApi ≤ metrics.publicApi ∧
      metrics.publicApi - metrics.undocumentedPublicApi ≤
        tokens.countP (·.kind = .comment .doc) := by
  intro metrics
  have hsubset := undocumentedPlaces_subset tokens
  have hpublic : metrics.publicApi = (publicPlaces tokens).card := publicApi_eq_card tokens
  have hundocumented : metrics.undocumentedPublicApi = (undocumentedPlaces tokens).card :=
    undocumentedPublicApi_eq_card tokens
  refine ⟨fun place hplace => ?_, fun doc p hp q hq hdocp hdocq => ?_, ?_, ?_, ?_⟩
  · obtain ⟨before, t, after, hitems, rfl, hadds⟩ := Item.mem_places.1 hplace
    rw [← documented_iff_documents hitems, undocumentedPlaces, Item.mem_places_ofTokens hitems,
      Scan.adds_undocumented]
    simp [hadds]
  · obtain ⟨before, t, after, hitems, rfl, -⟩ := Item.mem_places.1 hp
    obtain ⟨before', t', after', hitems', rfl, -⟩ := Item.mem_places.1 hq
    apply Nat.le_antisymm
    · exact hdocp.not_between hitems' hdocq.lt
    · exact hdocq.not_between hitems hdocp.lt
  · rw [hpublic, hundocumented, Finset.card_sdiff_of_subset hsubset]
  · rw [hpublic, hundocumented]
    exact Finset.card_le_card hsubset
  · have hle := publicApi_add_documented_le (Item.ofTokens tokens)
    rw [← Scan.outline_after, Item.flatMap_tokens_ofTokens] at hle
    have hpublic : metrics.publicApi = (Scan.after (Item.ofTokens tokens)).publicApi := rfl
    have hundocumented : metrics.undocumentedPublicApi =
        (Scan.after (Item.ofTokens tokens)).undocumented := rfl
    simp only [Scan.outline] at hle
    omega

/-- The doc comment documents the first of two declarations, across an annotation whose arguments
hold a declaring word. -/
theorem documented_declarations_first :
    let tokens := tokenize "/** doc */ @note(class) final val a = 1; val b = 2".toList
    7 ∈ publicPlaces tokens ∧ 12 ∈ publicPlaces tokens ∧ Documents tokens 0 7 ∧
      ¬ Documents tokens 0 12 := by
  intro tokens
  let token (kind : Token.Kind) (text : String) (first last : Nat) : Token :=
    ⟨kind, text, ⟨1, first⟩, ⟨1, last⟩⟩
  let leads : List Item := [.comment (token (.comment .doc) "/** doc */" 0 10),
    .annot [token .punct "@" 11 12, token .ident "note" 12 16, token .punct "(" 16 17,
      token .keyword "class" 17 22, token .punct ")" 22 23],
    .modifier (token .keyword "final" 24 29) []]
  let first := token .keyword "val" 30 33
  let mid := [token .ident "a" 34 35, token .operator "=" 36 37, token .number "1" 38 39,
    token .punct ";" 39 40]
  let second := token .keyword "val" 41 44
  let back := [token .ident "b" 45 46, token .operator "=" 47 48, token .number "2" 49 50]
  have hfirst : Item.ofTokens tokens =
      leads ++ Item.code first :: (mid ++ second :: back).map .code := by decide +kernel
  have hsecond : Item.ofTokens tokens =
      (leads ++ (first :: mid).map .code) ++ Item.code second :: back.map .code := hfirst
  have hadds : Scan.Adds Scan.publicApi leads first ∧ ¬ Scan.Adds Scan.undocumented leads first ∧
      Scan.Adds Scan.publicApi (leads ++ (first :: mid).map .code) second := by
    simp only [Scan.adds_publicApi, Scan.adds_undocumented]
    decide
  have hpublic : 7 ∈ publicPlaces tokens := (Item.mem_places_ofTokens hfirst).2 hadds.1
  have hother : 12 ∈ publicPlaces tokens := (Item.mem_places_ofTokens hsecond).2 hadds.2.2
  have hdocumented : 7 ∉ undocumentedPlaces tokens :=
    mt (Item.mem_places_ofTokens hfirst).1 hadds.2.1
  obtain ⟨hiff, hunique, -⟩ := documented_declarations tokens
  obtain ⟨doc, hdoc⟩ := (hiff 7 hpublic).1 hdocumented
  obtain rfl : doc = 0 := by
    have hplaces : ∀ doc < 7, (∃ t ∈ tokens[doc]?, t.kind = .comment .doc) → doc = 0 := by
      rw [← Item.flatMap_tokens_ofTokens tokens, hfirst]
      decide
    exact hplaces doc hdoc.lt hdoc.isDoc
  refine ⟨hpublic, hother, hdoc, fun h => ?_⟩
  exact absurd (hunique 0 7 hpublic 12 hother hdoc h) (by decide)

end SourceGauge.Scala
