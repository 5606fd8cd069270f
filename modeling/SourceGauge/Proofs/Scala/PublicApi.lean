import SourceGauge.Proofs.Scala.Place
import SourceGauge.Scala.CodeMetrics

/-! What one token does to the counts of the public interface, and the places in a token list at
which they grow. -/
namespace SourceGauge.Scala

/-- The part of a scan that the public interface depends on. It goes on from token to token without
the rest of the scan. -/
structure Outline where
  frames : List Frame := []
  pendingTemplate : Bool := false
  previous : Option Token := none
  hidden : Bool := false
  documented : Bool := false
  publicApi : Nat := 0
  undocumented : Nat := 0

namespace Outline

def inParen (o : Outline) : Bool := o.frames.head? = some .paren

/-- A declaration that is looked at: its word does not stand after a dot or in parentheses. -/
def declares (o : Outline) (t : Token) : Bool :=
  t.kind = .keyword && Scan.declarations.contains t.text && !o.previous.any (·.isPunct ".") &&
    !o.inParen

/-- Such a token ends the wait for a body. -/
def endsWait (o : Outline) (t : Token) : Bool :=
  t.isPunct "\x7b" || t.kind = .operator && t.text = "=" && !o.inParen

def isPublic (o : Outline) : Bool := o.frames.all (· = .template) && !o.hidden

def code (o : Outline) (t : Token) : Outline where
  frames :=
    if t.isPunct "\x7b" then (if o.pendingTemplate then .template else .block) :: o.frames
    else if t.isOpening then .paren :: o.frames
    else if t.isClosing then o.frames.tail
    else o.frames
  pendingTemplate :=
    if o.declares t then Scan.isTypeWord t.text else o.pendingTemplate && !o.endsWait t
  previous := some t
  hidden := false
  documented := false
  publicApi := o.publicApi + if o.declares t && o.isPublic then 1 else 0
  undocumented := o.undocumented + if o.declares t && o.isPublic && !o.documented then 1 else 0

/-- What stood before a token is gone after it. -/
def pass (o : Outline) (t : Token) : Outline :=
  { o with previous := some t, hidden := false, documented := false }

def step (o : Outline) : Item → Outline
  | .comment t => if t.kind = .comment .doc then { o with documented := true } else o
  | .annot _ => o
  | .modifier word _ => if Item.isHiding word then { o with hidden := true } else o
  | .typeCase _ => o
  | .code t => o.code t

/-- The outline after some items. -/
def after (items : List Item) : Outline := items.foldl step {}

theorem after_concat (items : List Item) (item : Item) :
    after (items ++ [item]) = (after items).step item := by
  simp [after]

end Outline

namespace Scan

def outline (s : Scan) : Outline :=
  ⟨s.frames, s.pendingTemplate, s.previous, s.hidden, s.documented, s.publicApi, s.undocumented⟩

theorem outline_countDecision (s : Scan) : s.countDecision.outline = s.outline := by
  unfold countDecision
  split <;> rfl

theorem closeFrom_eq (s : Scan) (depth : Nat) :
    s.closeFrom depth =
      { s with
        openFunctions := (endFunctionsFrom depth s.openFunctions s.ended).1
        ended := (endFunctionsFrom depth s.openFunctions s.ended).2 } := rfl

theorem outline_punct (s : Scan) {t : Token} (ht : t.kind = .punct) :
    (s.punct t.text).outline.pass t = s.outline.code t := by
  have hdeclares : s.outline.declares t = false := by simp [Outline.declares, ht]
  have hpunct (mark : String) : t.isPunct mark = decide (t.text = mark) := by
    simp [Token.isPunct, ht]
  simp only [Outline.code, Outline.endsWait, hdeclares, Token.isOpening, Token.isClosing,
    delimiters, List.any_cons, List.any_nil, hpunct, ht]
  unfold punct
  split
  case isTrue hmark =>
    cases hpending : s.pendingTemplate <;>
      simp [hmark, hpending, outline, openFrame, Outline.pass]
  split
  case isTrue hmark =>
    rcases Bool.or_eq_true_iff.1 hmark with hmark | hmark <;>
      simp [of_decide_eq_true hmark, outline, openFrame, Outline.pass]
  split
  case isTrue hmark =>
    rw [Bool.or_eq_true_iff, Bool.or_eq_true_iff] at hmark
    rcases hmark with (hmark | hmark) | hmark <;>
      simp [of_decide_eq_true hmark, outline, closeFrame, closeFrom_eq, Outline.pass]
  case isFalse => simp_all [outline, Outline.pass]

theorem outline_operator (s : Scan) {t : Token} (ht : t.kind = .operator) :
    (s.operator t.text).outline.pass t = s.outline.code t := by
  have hdeclares : s.outline.declares t = false := by simp [Outline.declares, ht]
  have hpunct (mark : String) : t.isPunct mark = false := by simp [Token.isPunct, ht]
  have hparen : s.outline.inParen = s.inParen := rfl
  simp only [Outline.code, Outline.endsWait, hdeclares, Token.isOpening, Token.isClosing,
    delimiters, List.any_cons, List.any_nil, hpunct, ht, hparen]
  unfold operator
  split
  case isTrue hsymbol =>
    rw [outline_countDecision]
    rcases Bool.or_eq_true_iff.1 hsymbol with hsymbol | hsymbol <;>
      simp [of_decide_eq_true hsymbol, outline, Outline.pass]
  split
  case isTrue hsymbol =>
    cases hs : s.inParen <;> simp [hsymbol, outline, Outline.pass]
  case isFalse hsymbol =>
    split <;> simp [hsymbol, outline, Outline.pass]

theorem outline_countApi (s : Scan) :
    s.countApi.outline =
      { s.outline with
        publicApi := s.publicApi + if s.outline.isPublic then 1 else 0
        undocumented := s.undocumented +
          if s.outline.isPublic && !s.documented then 1 else 0 } := by
  have hpublic : s.outline.isPublic = s.isPublic := rfl
  unfold countApi
  rw [hpublic]
  cases s.isPublic with
  | false => rfl
  | true => cases hdoc : s.documented <;> simp [outline, hdoc]

theorem outline_declaration {s : Scan} (word : String) (h : s.inParen = false) :
    (s.declaration word).outline =
      { s.outline with
        pendingTemplate := isTypeWord word
        publicApi := s.publicApi + if s.outline.isPublic then 1 else 0
        undocumented := s.undocumented +
          if s.outline.isPublic && !s.documented then 1 else 0 } := by
  simp only [declaration, h, Bool.false_eq_true, if_false, outline_countApi]
  split
  case isTrue hword =>
    subst hword
    rfl
  split
  case isTrue hword =>
    rw [hword]
    rfl
  case isFalse hword =>
    rw [Bool.eq_false_iff.2 hword]
    rfl

theorem outline_keyword (s : Scan) {t : Token} (ht : t.kind = .keyword) :
    (s.keyword t.text).outline.pass t = s.outline.code t := by
  have hpunct (mark : String) : t.isPunct mark = false := by simp [Token.isPunct, ht]
  have hdeclares : s.outline.declares t =
      (declarations.contains t.text && !s.previous.any (·.isPunct ".") && !s.inParen) := by
    simp only [Outline.declares, ht, decide_true, Bool.true_and]
    rfl
  have hcode : s.outline.code t =
      { s.outline with
        pendingTemplate := if s.outline.declares t then isTypeWord t.text else s.pendingTemplate
        previous := some t
        hidden := false
        documented := false
        publicApi := s.publicApi + if s.outline.declares t && s.outline.isPublic then 1 else 0
        undocumented := s.undocumented +
          if s.outline.declares t && s.outline.isPublic && !s.documented then 1 else 0 } := by
    obtain ⟨hopening, hclosing⟩ := Token.not_delimiter_of_kind (t := t) (by simp [ht])
    have hwait : s.outline.endsWait t = false := by simp [Outline.endsWait, hpunct, ht]
    simp only [Outline.code, hpunct, hopening, hclosing, hwait, Bool.not_false, Bool.and_true,
      Bool.false_eq_true, if_false]
    rfl
  have hwords : ∀ word ∈ ["if", "while", "for", "case"], declarations.contains word = false := by
    decide
  rw [hcode, hdeclares]
  unfold keyword
  split
  case isTrue hword =>
    rw [hwords t.text (by grind), outline_countDecision]
    rfl
  split
  case isTrue hword =>
    rw [hwords t.text (by grind)]
    exact congrArg (Outline.pass · t) (outline_countDecision s)
  split
  case isTrue hword =>
    rw [hword]
    cases hparen : s.inParen with
    | true =>
      rw [declaration, hparen]
      rfl
    | false =>
      rw [outline_declaration _ hparen]
      rfl
  case isFalse hword =>
    rw [Bool.eq_false_iff.2 hword]
    rfl

theorem outline_of_plain (s : Scan) {t : Token} (hpunct : t.kind ≠ .punct)
    (hoperator : t.kind ≠ .operator) (hkeyword : t.kind ≠ .keyword) :
    s.outline.pass t = s.outline.code t := by
  have hmark (mark : String) : t.isPunct mark = false := by simp [Token.isPunct, hpunct]
  simp [Outline.code, Outline.pass, Outline.declares, Outline.endsWait, Token.isOpening,
    Token.isClosing, hmark, hoperator, hkeyword]

/-- The outline goes on from a token on its own. -/
theorem outline_code (s : Scan) (t : Token) : (s.code t).outline = s.outline.code t := by
  have hbegin : (if s.startsStatement t then s.beginStatement else s).outline = s.outline := by
    split <;> rfl
  generalize hs' : (if s.startsStatement t then s.beginStatement else s) = s' at hbegin
  have hnext (next : Scan) (hnext : next.outline.pass t = s.outline.code t) :
      { next with
        afterCaseArrow := s'.endsPattern t
        hidden := false
        documented := false
        previous := some t : Scan }.outline = s.outline.code t := hnext
  unfold code
  dsimp only
  rw [hs']
  apply hnext
  rw [← hbegin]
  cases ht : t.kind with
  | punct => exact outline_punct s' ht
  | operator => exact outline_operator s' ht
  | keyword => exact outline_keyword s' ht
  | _ => simp [outline_of_plain, ht]

theorem outline_step (s : Scan) (item : Item) : (s.step item).outline = s.outline.step item := by
  cases item with
  | comment t => simp only [step, Outline.step]; split <;> rfl
  | annot => rfl
  | modifier word => simp only [step, Outline.step]; split <;> rfl
  | typeCase => rfl
  | code t => exact outline_code s t

/-- The state after some items. -/
def after (items : List Item) : Scan := items.foldl step {}

theorem outline_after (items : List Item) : (after items).outline = Outline.after items := by
  simp only [after, Outline.after]
  induction items using List.reverseRecOn with
  | nil => rfl
  | append_singleton items item ih =>
    rw [List.foldl_concat, List.foldl_concat, outline_step, ih]

theorem publicApi_code (s : Scan) (t : Token) :
    (s.code t).publicApi =
      s.publicApi + if s.outline.declares t && s.outline.isPublic then 1 else 0 :=
  congrArg Outline.publicApi (outline_code s t)

theorem undocumented_code (s : Scan) (t : Token) :
    (s.code t).undocumented =
      s.undocumented +
        if s.outline.declares t && s.outline.isPublic && !s.outline.documented then 1 else 0 :=
  congrArg Outline.undocumented (outline_code s t)

/-- The code token `t` after the items `before` adds to a count. -/
def Adds (count : Scan → Nat) (before : List Item) (t : Token) : Prop :=
  count (after before) < count ((after before).code t)

theorem adds_publicApi {before : List Item} {t : Token} : Adds publicApi before t ↔
    (Outline.after before).declares t = true ∧ (Outline.after before).isPublic = true := by
  rw [Adds, publicApi_code, outline_after, ← Bool.and_eq_true]
  split <;> simp_all

theorem adds_undocumented {before : List Item} {t : Token} : Adds undocumented before t ↔
    Adds publicApi before t ∧ (Outline.after before).documented = false := by
  rw [adds_publicApi, Adds, undocumented_code, outline_after]
  split <;> simp_all

/-- A count that grows by one at a time, and only at code tokens, is the number of the places at
which it grows. -/
theorem card_places_adds {count : Scan → Nat} (hstart : count {} = 0)
    (hother : ∀ s item, (∀ t, item ≠ .code t) → count (step s item) = count s)
    (hcode : ∀ s t, count s ≤ count (s.code t) ∧ count (s.code t) ≤ count s + 1)
    (items : List Item) : count (after items) = (Item.places (Adds count) items).card := by
  induction items using List.reverseRecOn with
  | nil => simpa [Item.places, after] using hstart
  | append_singleton items item ih =>
    have hafter : after (items ++ [item]) = (after items).step item := List.foldl_concat ..
    rw [hafter, Item.card_places_concat, ← ih]
    split
    case isTrue h =>
      obtain ⟨t, rfl, hadds⟩ := h
      exact Nat.le_antisymm (hcode _ t).2 hadds
    case isFalse h =>
      cases item with
      | code t =>
        exact Nat.le_antisymm (Nat.le_of_not_lt fun hadds => h ⟨t, rfl, hadds⟩) (hcode _ t).1
      | _ => exact hother _ _ (by simp)

theorem counts_step_of_not_code (s : Scan) {item : Item} (h : ∀ t, item ≠ .code t) :
    (s.step item).publicApi = s.publicApi ∧ (s.step item).undocumented = s.undocumented := by
  cases item with
  | comment t => simp only [step]; split <;> exact ⟨rfl, rfl⟩
  | modifier word => simp only [step]; split <;> exact ⟨rfl, rfl⟩
  | code t => exact absurd rfl (h t)
  | _ => exact ⟨rfl, rfl⟩

theorem publicApi_after (items : List Item) :
    (after items).publicApi = (Item.places (Adds publicApi) items).card := by
  refine card_places_adds rfl (fun s _ h => (counts_step_of_not_code s h).1) (fun s t => ?_) items
  rw [publicApi_code]
  split <;> omega

theorem undocumented_after (items : List Item) :
    (after items).undocumented = (Item.places (Adds undocumented) items).card := by
  refine card_places_adds rfl (fun s _ h => (counts_step_of_not_code s h).2) (fun s t => ?_) items
  rw [undocumented_code]
  split <;> omega

end Scan

/-- The places at which a public declaration is counted. -/
noncomputable def publicPlaces (tokens : List Token) : Finset Nat :=
  Item.places (Scan.Adds Scan.publicApi) (Item.ofTokens tokens)

/-- The places at which an undocumented public declaration is counted. -/
noncomputable def undocumentedPlaces (tokens : List Token) : Finset Nat :=
  Item.places (Scan.Adds Scan.undocumented) (Item.ofTokens tokens)

theorem publicApi_eq_card (tokens : List Token) :
    (CodeMetrics.ofTokens tokens).publicApi = (publicPlaces tokens).card :=
  Scan.publicApi_after (Item.ofTokens tokens)

theorem undocumentedPublicApi_eq_card (tokens : List Token) :
    (CodeMetrics.ofTokens tokens).undocumentedPublicApi = (undocumentedPlaces tokens).card :=
  Scan.undocumented_after (Item.ofTokens tokens)

end SourceGauge.Scala
