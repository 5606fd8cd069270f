import SourceGauge.Proofs.Scala.PublicApi

/-! Which declarations are counted as public. One flag says that a type declaration waits for its
body; the next brace takes it, wherever that brace stands. -/
namespace SourceGauge.Scala

/-- The code tokens among some items. -/
def codeTokens (items : List Item) : List Token :=
  items.filterMap fun
    | .code t => some t
    | _ => none

theorem codeTokens_append (xs ys : List Item) :
    codeTokens (xs ++ ys) = codeTokens xs ++ codeTokens ys := List.filterMap_append

theorem Item.eq_code_or_codeTokens_eq_nil (item : Item) :
    (∃ t, item = .code t) ∨ codeTokens [item] = [] := by
  cases item with
  | code t => exact .inl ⟨t, rfl⟩
  | _ => exact .inr rfl

/-- The innermost open group is one of parentheses or brackets. -/
def InParens (before : List Token) : Prop :=
  ∃ g ∈ (openGroups before).head?, g.opening.isPunct "\x7b" = false

/-- A declaring word that follows no dot and does not stand directly in parentheses. -/
structure Declares (before : List Token) (t : Token) : Prop where
  keyword : t.kind = .keyword
  word : Scan.declarations.contains t.text = true
  not_selected : ∀ p ∈ before.getLast?, p.isPunct "." = false
  not_inParens : ¬ InParens before

structure DeclaresType (before : List Token) (t : Token) : Prop extends Declares before t where
  type : Scan.isTypeWord t.text = true

/-- A token after which no type declaration waits for its body, unless it declares one itself. -/
inductive EndsWait (before : List Token) (t : Token) : Prop
  | brace (h : t.isPunct "\x7b" = true)
  | equals (hkind : t.kind = .operator) (htext : t.text = "=") (hparens : ¬ InParens before)
  | declares (h : Declares before t)

/-- A type declaration still waits for its body. -/
def AwaitsBody (before : List Token) : Prop :=
  ∃ pre declaration mid, before = pre ++ declaration :: mid ∧ DeclaresType pre declaration ∧
    ∀ front t back, mid = front ++ t :: back → ¬ EndsWait (pre ++ declaration :: front) t

theorem awaitsBody_concat {before : List Token} {t : Token} :
    AwaitsBody (before ++ [t]) ↔
      DeclaresType before t ∨ AwaitsBody before ∧ ¬ EndsWait before t := by
  constructor
  · rintro ⟨pre, declaration, mid, hsplit, hdeclares, hmid⟩
    rcases concat_eq_split.1 hsplit with ⟨rfl, rfl, -⟩ | ⟨mid, rfl, rfl⟩
    · exact .inl hdeclares
    · refine .inr ⟨⟨pre, declaration, mid, rfl, hdeclares, ?_⟩, hmid mid t [] rfl⟩
      rintro front x back rfl
      exact hmid front x (back ++ [t]) (by simp)
  · rintro (hdeclares | ⟨⟨pre, declaration, mid, rfl, hdeclares, hmid⟩, hends⟩)
    · exact ⟨before, t, [], rfl, hdeclares, by simp⟩
    · refine ⟨pre, declaration, mid ++ [t], by simp, hdeclares, fun front x back hsplit => ?_⟩
      rcases concat_eq_split.1 hsplit with ⟨rfl, rfl, -⟩ | ⟨back, -, hmid'⟩
      · exact hends
      · exact hmid front x back hmid'

/-- A hiding modifier stands after the last code token. -/
def HiddenAfter (items : List Item) : Prop :=
  ∃ front word qualifier back, items = front ++ .modifier word qualifier :: back ∧
    Item.isHiding word = true ∧ codeTokens back = []

theorem hiddenAfter_concat {items : List Item} {item : Item} :
    HiddenAfter (items ++ [item]) ↔
      (∃ word qualifier, item = .modifier word qualifier ∧ Item.isHiding word = true) ∨
        HiddenAfter items ∧ codeTokens [item] = [] := by
  constructor
  · rintro ⟨front, word, qualifier, back, hsplit, hword, hback⟩
    rcases concat_eq_split.1 hsplit with ⟨-, rfl, -⟩ | ⟨mid, rfl, hitems⟩
    · exact .inl ⟨word, qualifier, rfl, hword⟩
    · rw [codeTokens_append, List.append_eq_nil_iff] at hback
      exact .inr ⟨⟨front, word, qualifier, mid, hitems, hword, hback.1⟩, hback.2⟩
  · rintro (⟨word, qualifier, rfl, hword⟩ |
      ⟨⟨front, word, qualifier, back, rfl, hword, hback⟩, hitem⟩)
    · exact ⟨items, word, qualifier, [], rfl, hword, rfl⟩
    · refine ⟨front, word, qualifier, back ++ [item], by simp, hword, ?_⟩
      rw [codeTokens_append, hback, hitem]
      rfl

open Classical in
/-- The frame of an open group. -/
noncomputable def frameOf (g : OpenGroup) : Frame :=
  if g.opening.isPunct "\x7b" then if AwaitsBody g.before then .template else .block else .paren

theorem frameOf_eq_paren {g : OpenGroup} :
    frameOf g = .paren ↔ g.opening.isPunct "\x7b" = false := by
  unfold frameOf
  split
  · split <;> simp_all
  · simp_all

theorem frameOf_eq_template {g : OpenGroup} :
    frameOf g = .template ↔ g.opening.isPunct "\x7b" = true ∧ AwaitsBody g.before := by
  unfold frameOf
  split
  · split <;> simp_all
  · simp_all

/-- The outline of a scan says what stands before the next token. -/
structure Tracks (o : Outline) (items : List Item) : Prop where
  frames : o.frames = (openGroups (codeTokens items)).map frameOf
  pendingTemplate : o.pendingTemplate = true ↔ AwaitsBody (codeTokens items)
  previous : o.previous = (codeTokens items).getLast?
  hidden : o.hidden = true ↔ HiddenAfter items

namespace Tracks

variable {o : Outline} {items : List Item}

theorem inParen_iff (h : Tracks o items) : o.inParen = true ↔ InParens (codeTokens items) := by
  unfold Outline.inParen InParens
  rw [h.frames, List.head?_map, decide_eq_true_eq, Option.map_eq_some_iff]
  simp only [frameOf_eq_paren]
  rfl

theorem not_inParen_iff (h : Tracks o items) :
    (!o.inParen) = true ↔ ¬ InParens (codeTokens items) := by
  rw [← h.inParen_iff, Bool.not_eq_true', Bool.not_eq_true]

theorem declares_iff (h : Tracks o items) (t : Token) :
    o.declares t = true ↔ Declares (codeTokens items) t := by
  have hselected : (!o.previous.any (·.isPunct ".")) = true ↔
      ∀ p ∈ (codeTokens items).getLast?, p.isPunct "." = false := by
    rw [h.previous]
    cases (codeTokens items).getLast? <;> simp
  rw [Outline.declares, Bool.and_eq_true, Bool.and_eq_true, Bool.and_eq_true, hselected,
    h.not_inParen_iff, decide_eq_true_eq]
  constructor
  · rintro ⟨⟨⟨hkind, hword⟩, hlast⟩, hout⟩
    exact ⟨hkind, hword, hlast, hout⟩
  · intro hd
    exact ⟨⟨⟨hd.keyword, hd.word⟩, hd.not_selected⟩, hd.not_inParens⟩

theorem endsWait_iff (h : Tracks o items) {t : Token} (ht : o.declares t = false) :
    o.endsWait t = true ↔ EndsWait (codeTokens items) t := by
  rw [Outline.endsWait, Bool.or_eq_true, Bool.and_eq_true, Bool.and_eq_true, h.not_inParen_iff,
    decide_eq_true_eq, decide_eq_true_eq]
  constructor
  · rintro (hbrace | ⟨⟨hkind, htext⟩, hout⟩)
    · exact .brace hbrace
    · exact .equals hkind htext hout
  · rintro (hbrace | ⟨hkind, htext, hout⟩ | hdeclares)
    · exact .inl hbrace
    · exact .inr ⟨⟨hkind, htext⟩, hout⟩
    · rw [(h.declares_iff t).2 hdeclares] at ht
      cases ht

theorem code (h : Tracks o items) (t : Token) : Tracks (o.code t) (items ++ [.code t]) := by
  have hcode : codeTokens (items ++ [.code t]) = codeTokens items ++ [t] := codeTokens_append ..
  refine ⟨?_, ?_, ?_, ?_⟩
  · rw [hcode, openGroups_concat]
    simp only [Outline.code, h.frames]
    cases hbrace : t.isPunct "\x7b" with
    | true =>
      have hopening := (Token.isOpening_of_isPunct (d := ("\x7b", "\x7d")) (by decide) hbrace).1
      by_cases hwait : AwaitsBody (codeTokens items)
      · simp [hopening, frameOf, hbrace, hwait, h.pendingTemplate.2 hwait]
      · simp [hopening, frameOf, hbrace, hwait, Bool.eq_false_iff.2 (mt h.pendingTemplate.1 hwait)]
    | false =>
      simp only [Bool.false_eq_true, if_false]
      split
      · simp [frameOf, hbrace]
      split
      · rw [List.map_tail]
      · rfl
  · rw [hcode, awaitsBody_concat]
    simp only [Outline.code]
    cases hdeclares : o.declares t with
    | true =>
      have hd := (h.declares_iff t).1 hdeclares
      rw [if_pos rfl]
      exact ⟨fun htype => .inl ⟨hd, htype⟩, fun hor => hor.elim (·.type) fun hno =>
        absurd (.declares hd) hno.2⟩
    | false =>
      have hnot : ¬ Declares (codeTokens items) t := by
        rw [← h.declares_iff, hdeclares]
        exact Bool.false_ne_true
      rw [if_neg Bool.false_ne_true, Bool.and_eq_true, h.pendingTemplate,
        ← h.endsWait_iff hdeclares, Bool.not_eq_true', Bool.not_eq_true]
      exact ⟨.inr, fun hor => hor.resolve_left fun hd => hnot hd.toDeclares⟩
  · rw [hcode, List.getLast?_concat]
    rfl
  · rw [hiddenAfter_concat]
    simp [Outline.code, codeTokens]

/-- An item without code leaves all but the modifiers and comments before the next token. -/
theorem skip (h : Tracks o items) {item : Item} (hitem : codeTokens [item] = [])
    {hidden documented : Bool} (hhidden : hidden = true ↔ HiddenAfter (items ++ [item])) :
    Tracks { o with hidden := hidden, documented := documented } (items ++ [item]) := by
  have hcode : codeTokens (items ++ [item]) = codeTokens items := by
    rw [codeTokens_append, hitem, List.append_nil]
  exact ⟨hcode ▸ h.frames, hcode ▸ h.pendingTemplate, hcode ▸ h.previous, hhidden⟩

theorem step (h : Tracks o items) (item : Item) : Tracks (o.step item) (items ++ [item]) := by
  have hidden (hitem : codeTokens [item] = [])
      (hmodifier : ∀ word qualifier, item = .modifier word qualifier → Item.isHiding word = false) :
      o.hidden = true ↔ HiddenAfter (items ++ [item]) := by
    rw [hiddenAfter_concat, h.hidden]
    refine ⟨fun hh => .inr ⟨hh, hitem⟩, ?_⟩
    rintro (⟨word, qualifier, heq, hword⟩ | ⟨hh, -⟩)
    · rw [hmodifier word qualifier heq] at hword
      cases hword
    · exact hh
  cases item with
  | code t => exact h.code t
  | comment t =>
    simp only [Outline.step]
    split
    · exact h.skip rfl (hidden rfl (by simp))
    · exact h.skip rfl (hidden rfl (by simp))
  | modifier word qualifier =>
    simp only [Outline.step]
    split
    case isTrue hword =>
      refine h.skip rfl ?_
      rw [hiddenAfter_concat]
      simp [hword]
    case isFalse hword => exact h.skip rfl (hidden rfl (by simp_all))
  | annot span => exact h.skip rfl (hidden rfl (by simp))
  | typeCase t => exact h.skip rfl (hidden rfl (by simp))

theorem after (items : List Item) : Tracks (Outline.after items) items := by
  induction items using List.reverseRecOn with
  | nil =>
    refine ⟨rfl, ?_, rfl, ?_⟩
    · simp [Outline.after, AwaitsBody, codeTokens]
    · simp [Outline.after, HiddenAfter]
  | append_singleton items item ih =>
    rw [Outline.after_concat]
    exact ih.step item

end Tracks

/-- The group opens while a type declaration waits for its body. -/
def OpenGroup.IsAwaited (g : OpenGroup) : Prop := AwaitsBody g.before

/-- The code token `t` declares a member that is not hidden, and all groups around it are braces of
the kind `p`. -/
structure IsMember (hidden : List Item → Prop) (p : OpenGroup → Prop) (before : List Item)
    (t : Token) : Prop where
  keyword : t.kind = .keyword
  word : Scan.declarations.contains t.text = true
  not_selected : ∀ p ∈ (codeTokens before).getLast?, p.isPunct "." = false
  not_hidden : ¬ hidden before
  enclosed : ∀ g ∈ openGroups (codeTokens before), g.opening.isPunct "\x7b" = true ∧ p g

/-- The members of whatever braces open while a type declaration waits for its body are counted. -/
theorem adds_publicApi_iff {before : List Item} {t : Token} :
    Scan.Adds Scan.publicApi before t ↔ IsMember HiddenAfter OpenGroup.IsAwaited before t := by
  have h := Tracks.after before
  have hframes : (∀ frame ∈ (Outline.after before).frames, frame = .template) ↔
      ∀ g ∈ openGroups (codeTokens before), g.opening.isPunct "\x7b" = true ∧ g.IsAwaited := by
    simp only [h.frames, List.forall_mem_map, frameOf_eq_template]
    rfl
  have hhidden : (!(Outline.after before).hidden) = true ↔ ¬ HiddenAfter before := by
    rw [← h.hidden, Bool.not_eq_true', Bool.not_eq_true]
  rw [Scan.adds_publicApi, h.declares_iff, Outline.isPublic, Bool.and_eq_true, hhidden,
    List.all_eq_true]
  simp only [decide_eq_true_eq, hframes]
  constructor
  · rintro ⟨hd, henclosed, hshown⟩
    exact ⟨hd.keyword, hd.word, hd.not_selected, hshown, henclosed⟩
  · intro hmember
    refine ⟨⟨hmember.keyword, hmember.word, hmember.not_selected, ?_⟩, hmember.enclosed,
      hmember.not_hidden⟩
    rintro ⟨g, hg, hparen⟩
    rw [(hmember.enclosed g (List.mem_of_head? hg)).1] at hparen
    cases hparen

end SourceGauge.Scala
