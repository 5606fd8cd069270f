import Mathlib
import SourceGauge.Proofs.Scala.Clause

/-! The tokens of a list at which the scan stops. It passes over what an annotation or a modifier
takes along, and over nothing else. -/
namespace SourceGauge.Scala

/-- The scan stops at the place: an item begins there. -/
def Reached (tokens : List Token) (place : Nat) : Prop :=
  ∃ before item after, Item.ofTokens tokens = before ++ item :: after ∧ Item.size before = place

/-- The place lies in an annotation, behind its at sign. -/
def InAnnot (tokens : List Token) (place : Nat) : Prop :=
  ∃ (before : List Token) (mark : Token) (rest : List Token),
    tokens = before ++ mark :: rest ∧ Reached tokens before.length ∧ mark.isPunct "@" = true ∧
      before.length < place ∧ place ≤ before.length + Item.annotationLength rest

/-- The place lies in the bracketed qualifier of a modifier, or in a comment before the bracket. -/
def InQualifier (tokens : List Token) (place : Nat) : Prop :=
  ∃ (before : List Token) (word : Token) (rest : List Token),
    tokens = before ++ word :: rest ∧ Reached tokens before.length ∧ word.kind = .keyword ∧
      Item.isHiding word = true ∧ before.length < place ∧
        place ≤ before.length + Item.qualifierLength rest

namespace Item

/-- Items that take up less room stand in front. -/
theorem exists_append_of_size_lt {xs ys back rest : List Item} {item : Item}
    (h : xs ++ item :: back = ys ++ rest) (hsize : size xs < size ys) :
    ∃ zs, ys = xs ++ item :: zs := by
  rcases List.append_eq_append_iff.1 h with ⟨zs, rfl, hzs⟩ | ⟨zs, rfl, -⟩
  · cases zs with
    | nil => simp at hsize
    | cons x zs =>
      obtain ⟨rfl, -⟩ := List.cons.inj hzs
      exact ⟨zs, rfl⟩
  · rw [size_append] at hsize
    omega

end Item

theorem reached_head (t : Token) (rest : List Token) : Reached (t :: rest) 0 := by
  refine ⟨[], (Item.read t rest).1, Item.ofTokens (rest.drop (Item.read t rest).2), ?_, rfl⟩
  rw [Item.ofTokens]
  rfl

/-- The item that begins at a place. -/
theorem Reached.exists_items {front rest : List Token} {t : Token}
    (h : Reached (front ++ t :: rest) front.length) :
    ∃ before after, Item.ofTokens (front ++ t :: rest) = before ++ (Item.read t rest).1 :: after ∧
      before.flatMap Item.tokens = front := by
  obtain ⟨before, item, after, hitems, hsize⟩ := h
  obtain ⟨htokens, hback⟩ := Item.ofTokens_of_append hitems
  obtain ⟨rfl, hrest⟩ := List.append_inj htokens hsize.symm
  rw [← hrest, Item.ofTokens] at hback
  obtain ⟨rfl, -⟩ := List.cons.inj hback
  exact ⟨before, after, hitems, rfl⟩

/-- A place that is passed over lies in an item that begins before it. -/
theorem not_reached_iff_read {tokens : List Token} {place : Nat} (h : place < tokens.length) :
    ¬ Reached tokens place ↔
      ∃ (before : List Token) (t : Token) (rest : List Token),
        tokens = before ++ t :: rest ∧ Reached tokens before.length ∧
          before.length < place ∧ place ≤ before.length + (Item.read t rest).2 := by
  constructor
  · intro hreached
    obtain ⟨front, t, rest, rfl, rfl⟩ : ∃ front t rest, tokens = front ++ t :: rest ∧
        front.length = place :=
      ⟨tokens.take place, tokens[place], tokens.drop (place + 1), by simp, by simp; omega⟩
    rcases Item.ofTokens_append_cases front (t :: rest) with
      ⟨items, rfl, hitems⟩ | ⟨items, mark, inner, after, rfl, hlong, hitems⟩
    · rw [Item.ofTokens] at hitems
      exact absurd ⟨items, _, _, hitems, rfl⟩ hreached
    · refine ⟨items.flatMap Item.tokens, mark, inner ++ t :: rest, by simp, ?_, ?_, ?_⟩
      · exact ⟨items, _, after, hitems, rfl⟩
      · simp
      · rw [List.length_append, List.length_cons]
        omega
  · rintro ⟨front, t, rest, rfl, hfront, hlt, hle⟩ ⟨before, item, after, hitems, rfl⟩
    obtain ⟨earlier, later, hread, rfl⟩ := hfront.exists_items
    have hprefix : ∃ zs, before = earlier ++ (Item.read t rest).1 :: zs :=
      Item.exists_append_of_size_lt (hread.symm.trans hitems) hlt
    obtain ⟨zs, rfl⟩ := hprefix
    have htokens := congrArg List.length (Item.tokens_read t rest)
    simp only [List.length_append, List.length_cons, List.length_take] at h htokens
    rw [Item.size_append, Item.size_cons, htokens] at h hle
    have hsize : (earlier.flatMap Item.tokens).length = Item.size earlier := rfl
    omega

/-- What is passed over lies in an annotation or in a qualifier. -/
theorem not_reached_iff {tokens : List Token} {place : Nat} (h : place < tokens.length) :
    ¬ Reached tokens place ↔ InAnnot tokens place ∨ InQualifier tokens place := by
  rw [not_reached_iff_read h]
  constructor
  · rintro ⟨before, t, rest, htokens, hreached, hlt, hle⟩
    rw [Item.read_snd] at hle
    split at hle
    case isTrue hmark => exact .inl ⟨before, t, rest, htokens, hreached, hmark, hlt, hle⟩
    split at hle
    case isTrue hword => exact .inr ⟨before, t, rest, htokens, hreached, hword.1, hword.2, hlt, hle⟩
    case isFalse => omega
  · rintro (⟨before, mark, rest, htokens, hreached, hmark, hlt, hle⟩ |
      ⟨before, word, rest, htokens, hreached, hkind, hword, hlt, hle⟩)
    · refine ⟨before, mark, rest, htokens, hreached, hlt, ?_⟩
      rwa [Item.read_snd, if_pos hmark]
    · refine ⟨before, word, rest, htokens, hreached, hlt, ?_⟩
      rwa [Item.read_snd, if_neg (by simp [Token.isPunct, hkind]), if_pos ⟨hkind, hword⟩]

end SourceGauge.Scala
