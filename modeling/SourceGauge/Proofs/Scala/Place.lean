import Mathlib.Data.Finset.Card
import Mathlib.Data.Finset.Range
import SourceGauge.Proofs.Scala.Reading

/-! Places in a token list at which a code token stands. Where items are cut before a place, exactly
one code token can stand there, and none stands inside an item. -/
namespace SourceGauge.Scala

/-- A list with one more element is cut at that element or at an earlier one. -/
theorem concat_eq_split {α : Type} {xs front back : List α} {x y : α} :
    xs ++ [x] = front ++ y :: back ↔
      (xs = front ∧ x = y ∧ back = []) ∨ ∃ mid, back = mid ++ [x] ∧ xs = front ++ y :: mid := by
  constructor
  · intro h
    rcases List.eq_nil_or_concat back with rfl | ⟨mid, last, rfl⟩
    · obtain ⟨hxs, hx⟩ := List.append_inj' h rfl
      exact .inl ⟨hxs, List.singleton_inj.1 hx, rfl⟩
    · rw [List.concat_eq_append, ← List.cons_append, ← List.append_assoc] at h
      obtain ⟨hxs, hx⟩ := List.append_inj' h rfl
      exact .inr ⟨mid, by rw [List.concat_eq_append, hx], hxs⟩
  · rintro (⟨rfl, rfl, rfl⟩ | ⟨mid, rfl, rfl⟩)
    · rfl
    · simp

namespace Item

@[simp] theorem size_nil : size [] = 0 := rfl

@[simp] theorem size_append (xs ys : List Item) : size (xs ++ ys) = size xs + size ys := by
  simp [size]

@[simp] theorem size_cons (item : Item) (items : List Item) :
    size (item :: items) = item.tokens.length + size items := by simp [size]

/-- Where the items before it end, a code token stands that fits `p`. -/
def CodeAt (p : List Item → Token → Prop) (items : List Item) (place : Nat) : Prop :=
  ∃ before t after, items = before ++ .code t :: after ∧ size before = place ∧ p before t

theorem CodeAt.lt {p : List Item → Token → Prop} {items : List Item} {place : Nat}
    (h : CodeAt p items place) : place < size items := by
  obtain ⟨before, t, after, rfl, rfl, -⟩ := h
  rw [size_append, size_cons, tokens, List.length_singleton]
  omega

theorem codeAt_concat {p : List Item → Token → Prop} {items : List Item} {item : Item}
    {place : Nat} : CodeAt p (items ++ [item]) place ↔
      CodeAt p items place ∨ place = size items ∧ ∃ t, item = .code t ∧ p items t := by
  constructor
  · rintro ⟨before, t, after, hsplit, rfl, hp⟩
    rcases concat_eq_split.1 hsplit with ⟨rfl, hitem, -⟩ | ⟨mid, rfl, hitems⟩
    · exact .inr ⟨rfl, t, hitem, hp⟩
    · exact .inl ⟨before, t, mid, hitems, rfl, hp⟩
  · rintro (⟨before, t, after, rfl, rfl, hp⟩ | ⟨rfl, t, rfl, hp⟩)
    · exact ⟨before, t, after ++ [item], by simp, rfl, hp⟩
    · exact ⟨items, t, [], rfl, rfl, hp⟩

theorem eq_of_size_eq {items xs ys rest : List Item} (hne : ∀ item ∈ items, item.tokens ≠ [])
    (hxs : items = xs ++ rest) {rest' : List Item} (hys : items = ys ++ rest')
    (hsize : size xs = size ys) : xs = ys := by
  have hnil {zs : List Item} (hzs : ∀ item ∈ zs, item ∈ items) (h : size zs = 0) : zs = [] := by
    cases zs with
    | nil => rfl
    | cons item zs =>
      have := List.length_pos_iff.2 (hne item (hzs item List.mem_cons_self))
      rw [size_cons] at h
      omega
  rcases List.append_eq_append_iff.1 (hxs.symm.trans hys) with ⟨zs, rfl, -⟩ | ⟨zs, rfl, -⟩
  · have hzs : zs = [] := by
      rw [size_append] at hsize
      exact hnil (fun item hitem => by simp [hys, hitem]) (by omega)
    rw [hzs, List.append_nil]
  · have hzs : zs = [] := by
      rw [size_append] at hsize
      exact hnil (fun item hitem => by simp [hxs, hitem]) (by omega)
    rw [hzs, List.append_nil]

/-- One code token stands at the place where some items end. -/
theorem codeAt_append {p : List Item → Token → Prop} {xs ys : List Item} {t : Token}
    (hne : ∀ item ∈ xs ++ .code t :: ys, item.tokens ≠ []) :
    CodeAt p (xs ++ .code t :: ys) (size xs) ↔ p xs t := by
  refine ⟨?_, fun h => ⟨xs, t, ys, rfl, rfl, h⟩⟩
  rintro ⟨before, t', after, hsplit, hsize, hp⟩
  obtain rfl := eq_of_size_eq hne hsplit rfl hsize
  obtain ⟨ht, -⟩ := List.cons.inj (List.append_cancel_left hsplit)
  obtain rfl := Item.code.inj ht
  exact hp

theorem not_codeAt_inside {p : List Item → Token → Prop} {xs ys : List Item} {item : Item}
    {place : Nat} (hfirst : size xs < place) (hlast : place < size xs + item.tokens.length) :
    ¬ CodeAt p (xs ++ item :: ys) place := by
  rintro ⟨before, t, after, hsplit, rfl, -⟩
  rcases List.append_eq_append_iff.1 hsplit with ⟨_ | ⟨x, zs⟩, rfl, hzs⟩ | ⟨zs, rfl, -⟩
  · rw [List.append_nil] at hfirst
    exact Nat.lt_irrefl _ hfirst
  · obtain ⟨rfl, -⟩ := List.cons.inj hzs
    rw [size_append, size_cons] at hlast
    omega
  · rw [size_append] at hfirst
    omega

/-- Where no item goes on past `front`, which is well nested, either the items are cut before it, or
the code token after it lies inside an item. -/
theorem aligned_or_not_codeAt {front : List Token} (hfront : WellNested front) {last : Token}
    {post : List Token} (hhalts : Halts (front ++ last :: post)) (pre : List Token) :
    (∃ items, items.flatMap tokens = pre ∧
      ofTokens (pre ++ (front ++ last :: post)) = items ++ ofTokens (front ++ last :: post)) ∨
    ∀ p, ¬ CodeAt p (ofTokens (pre ++ (front ++ last :: post))) (pre.length + front.length) := by
  rcases ofTokens_append_cases pre (front ++ last :: post) with
    hitems | ⟨items, t, inner, after, rfl, hlong, hitems⟩
  · exact .inl hitems
  · right
    intro p
    rw [hitems]
    have hsize : (items.flatMap tokens).length = size items := rfl
    have htokens := congrArg List.length (tokens_read t (inner ++ (front ++ last :: post)))
    simp only [List.length_cons, List.length_take, List.length_append] at htokens
    rcases read_stopsOrOpens hhalts t inner with
      hshort | ⟨d, hd, outside, opening, inside, rfl, -, hlength⟩
    · omega
    simp only [List.length_cons, List.length_append] at htokens hlong ⊢
    rcases groupLength_append_cases d.1 d.2 0 inside (front ++ last :: post) with
      hshort | ⟨outer, hgroup⟩
    · omega
    -- The group is still open at `front`, closes in no part of it and takes `last` as well.
    · have hlast := one_le_groupLength d.1 d.2 outer last post
      rw [groupLength_append hd hfront] at hgroup
      apply not_codeAt_inside <;> omega

open Classical in
/-- The places of the code tokens that fit `p`. -/
noncomputable def places (p : List Item → Token → Prop) (items : List Item) : Finset Nat :=
  (Finset.range (size items)).filter (CodeAt p items)

theorem mem_places {p : List Item → Token → Prop} {items : List Item} {place : Nat} :
    place ∈ places p items ↔ CodeAt p items place := by
  simpa [places] using CodeAt.lt

theorem mem_places_ofTokens {p : List Item → Token → Prop} {tokens : List Token}
    {before : List Item} {t : Token} {after : List Item}
    (h : ofTokens tokens = before ++ Item.code t :: after) :
    size before ∈ places p (ofTokens tokens) ↔ p before t := by
  have hne : ∀ item ∈ before ++ Item.code t :: after, item.tokens ≠ [] := by
    rw [← h]
    exact fun item => tokens_ne_nil_of_mem
  rw [mem_places, h, codeAt_append hne]

theorem places_congr {p q : List Item → Token → Prop} {items : List Item}
    (h : ∀ before t after, items = before ++ .code t :: after → (p before t ↔ q before t)) :
    places p items = places q items := by
  ext place
  rw [mem_places, mem_places]
  constructor
  · rintro ⟨before, t, after, hsplit, hplace, hp⟩
    exact ⟨before, t, after, hsplit, hplace, (h before t after hsplit).1 hp⟩
  · rintro ⟨before, t, after, hsplit, hplace, hq⟩
    exact ⟨before, t, after, hsplit, hplace, (h before t after hsplit).2 hq⟩

open Classical in
theorem card_places_concat (p : List Item → Token → Prop) (items : List Item) (item : Item) :
    (places p (items ++ [item])).card =
      (places p items).card + if ∃ t, item = .code t ∧ p items t then 1 else 0 := by
  split
  case isTrue h =>
    have hplaces : places p (items ++ [item]) = insert (size items) (places p items) := by
      ext place
      simp only [mem_places, codeAt_concat, Finset.mem_insert, h, and_true, or_comm]
    rw [hplaces, Finset.card_insert_of_notMem]
    exact fun hmem => Nat.lt_irrefl _ (mem_places.1 hmem).lt
  case isFalse h =>
    have hplaces : places p (items ++ [item]) = places p items := by
      ext place
      simp only [mem_places, codeAt_concat, h, and_false, or_false]
    rw [hplaces, Nat.add_zero]

end Item

end SourceGauge.Scala
