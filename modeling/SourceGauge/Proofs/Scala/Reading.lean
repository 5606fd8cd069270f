import SourceGauge.Proofs.Scala.Nesting

/-! Where the items of a token list begin. An item that begins before some place ends there too,
unless a group that it takes whole is still open. -/
namespace SourceGauge.Scala.Item

theorem tokens_ne_nil_of_mem {ts : List Token} {item : Item} (h : item ∈ ofTokens ts) :
    item.tokens ≠ [] := by
  fun_induction ofTokens ts with
  | case1 => cases h
  | case2 t rest ih =>
    rcases List.mem_cons.1 h with rfl | h
    · rw [tokens_read]
      exact List.cons_ne_nil _ _
    · exact ih h

/-- The number of tokens in some items. -/
def size (items : List Item) : Nat := (items.flatMap tokens).length

/-- A list is cut at a place between two of its items, or inside an item that begins before it. -/
theorem ofTokens_append_cases (front rest : List Token) :
    (∃ items, items.flatMap tokens = front ∧ ofTokens (front ++ rest) = items ++ ofTokens rest) ∨
      ∃ items t inner after, front = items.flatMap tokens ++ t :: inner ∧
        inner.length < (read t (inner ++ rest)).2 ∧
        ofTokens (front ++ rest) = items ++ (read t (inner ++ rest)).1 :: after := by
  induction h : front.length using Nat.strongRecOn generalizing front with
  | ind n ih =>
    cases front with
    | nil => exact .inl ⟨[], rfl, rfl⟩
    | cons t inner =>
      rw [List.cons_append, ofTokens]
      have htokens := tokens_read t (inner ++ rest)
      generalize hitem : read t (inner ++ rest) = item at htokens ⊢
      by_cases hlength : item.2 ≤ inner.length
      · rw [List.take_append_of_le_length hlength] at htokens
        rw [List.drop_append_of_le_length hlength]
        have hshort : (inner.drop item.2).length < n := by
          rw [← h, List.length_drop, List.length_cons]
          omega
        rcases ih _ hshort (inner.drop item.2) rfl with
          ⟨items, hitems, hrest⟩ | ⟨items, t', inner', after, hsplit, hlong, hrest⟩
        · refine .inl ⟨item.1 :: items, ?_, ?_⟩
          · rw [List.flatMap_cons, htokens, hitems, List.cons_append, List.take_append_drop]
          · rw [hrest, List.cons_append]
        · refine .inr ⟨item.1 :: items, t', inner', after, ?_, hlong, ?_⟩
          · rw [List.flatMap_cons, htokens, List.append_assoc, ← hsplit, List.cons_append,
              List.take_append_drop]
          · rw [hrest, List.cons_append]
      -- The item goes on past `front`, which it is the last to begin in.
      · refine .inr ⟨[], t, inner, ofTokens ((inner ++ rest).drop item.2), rfl, ?_, ?_⟩
        · rw [hitem]
          exact Nat.lt_of_not_le hlength
        · rw [hitem]
          rfl

/-- The tokens taken by an item beyond its first one stop before `rest`, or the last thing in it is
a group that is open where `rest` begins. -/
def StopsOrOpens (front rest : List Token) (n : Nat) : Prop :=
  n ≤ front.length ∨ ∃ d ∈ delimiters, ∃ outside opening inside,
    front = outside ++ opening :: inside ∧ opening.isPunct d.1 = true ∧
      n = outside.length + (1 + groupLength d.1 d.2 0 (inside ++ rest))

theorem StopsOrOpens.cons {front rest : List Token} {n : Nat} (h : StopsOrOpens front rest n)
    (t : Token) : StopsOrOpens (t :: front) rest (1 + n) := by
  rcases h with hn | ⟨d, hd, outside, opening, inside, rfl, hopening, rfl⟩
  · left
    rw [List.length_cons]
    omega
  · refine .inr ⟨d, hd, t :: outside, opening, inside, rfl, hopening, ?_⟩
    rw [List.length_cons]
    omega

theorem StopsOrOpens.opening {d : String × String} (hd : d ∈ delimiters) {opening : Token}
    (hopening : opening.isPunct d.1 = true) (front rest : List Token) :
    StopsOrOpens (opening :: front) rest (1 + groupLength d.1 d.2 0 (front ++ rest)) :=
  .inr ⟨d, hd, [], opening, front, rfl, hopening, (Nat.zero_add _).symm⟩

/-- Such tokens are no further part of a modifier or an annotation that ends before them. -/
structure EndsItem (rest : List Token) : Prop where
  not_point : ∀ t ∈ rest.head?, t.isPunct "." = false
  not_arguments : ∀ t ∈ rest.head?, t.isPunct "(" = false
  not_qualifier : qualifierLength rest = 0

/-- No item that begins before such tokens goes on into them, unless in an open group. -/
structure Halts (rest : List Token) : Prop extends EndsItem rest where
  not_name : ∀ t ∈ rest.head?, isName t = false

/-- A comment before a qualifier is taken along with it. -/
theorem qualifierLength_comment {t : Token} (ht : t.isComment = true) (ts : List Token) :
    qualifierLength (t :: ts) = if qualifierLength ts = 0 then 0 else 1 + qualifierLength ts := by
  cases h : ts.drop (ts.takeWhile Token.isComment).length with
  | nil => simp [qualifierLength, ht, h]
  | cons x inner =>
    simp only [qualifierLength, List.takeWhile_cons, ht, if_true, List.length_cons,
      List.drop_succ_cons, h]
    split
    · rw [if_neg (by omega)]
      omega
    · rfl

theorem qualifierLength_of_not_comment {t : Token} (ht : t.isComment = false) (ts : List Token) :
    qualifierLength (t :: ts) =
      if t.isPunct "[" then 1 + groupLength "[" "]" 0 ts else 0 := by
  simp [qualifierLength, ht]

theorem EndsItem.comment {t : Token} (ht : t.isComment = true) {rest : List Token}
    (h : EndsItem rest) : EndsItem (t :: rest) := by
  have hpunct (mark : String) : t.isPunct mark = false := by
    cases hkind : t.kind <;> simp_all [Token.isComment, Token.isPunct]
  refine ⟨?_, ?_, ?_⟩
  · simpa using hpunct "."
  · simpa using hpunct "("
  · rw [qualifierLength_comment ht, if_pos h.not_qualifier]

theorem EndsItem.of_not_comment {t : Token} (ht : t.isComment = false)
    (hmarks : ∀ mark ∈ [".", "(", "["], t.isPunct mark = false) (rest : List Token) :
    EndsItem (t :: rest) := by
  obtain ⟨hpoint, harguments, hqualifier⟩ : t.isPunct "." = false ∧ t.isPunct "(" = false ∧
      t.isPunct "[" = false := by simpa using hmarks
  refine ⟨by simpa using hpoint, by simpa using harguments, ?_⟩
  rw [qualifierLength_of_not_comment ht, hqualifier]
  rfl

theorem EndsItem.of_keyword {t : Token} (ht : t.kind = .keyword) (rest : List Token) :
    EndsItem (t :: rest) :=
  .of_not_comment (by simp [Token.isComment, ht]) (by simp [Token.isPunct, ht]) rest

theorem argumentsLength_of_not_opening {rest : List Token}
    (h : ∀ t ∈ rest.head?, t.isPunct "(" = false) (name : Token) :
    argumentsLength name rest = 0 := by
  cases rest with
  | nil => rfl
  | cons t rest =>
    rw [argumentsLength, h t rfl]
    rfl

section Length
variable {rest : List Token}

theorem argumentsLength_stopsOrOpens (h : Halts rest) (name : Token) (front : List Token) :
    StopsOrOpens front rest (argumentsLength name (front ++ rest)) := by
  rcases front with _ | ⟨t, front⟩
  · exact .inl (Nat.le_of_eq (argumentsLength_of_not_opening h.not_arguments name))
  · rw [List.cons_append, argumentsLength]
    split
    case isTrue ht =>
      have hopening : t.isPunct "(" = true := (Bool.and_eq_true_iff.1 ht).1
      exact .opening (d := ("(", ")")) (by decide) hopening front rest
    case isFalse => exact .inl (Nat.zero_le _)

/-- After a part of its name an annotation goes on with a point and a further part, or with its
arguments. -/
theorem annotationTail_cases (name : Token) (ts : List Token) :
    annotationTail name ts = argumentsLength name ts ∨
      ∃ point next more, ts = point :: next :: more ∧ point.isPunct "." = true ∧
        isName next = true ∧ annotationTail name ts = 1 + (1 + annotationTail next more) := by
  match ts with
  | [] => exact .inl rfl
  | [t] => exact .inl rfl
  | point :: next :: more =>
    rw [annotationTail]
    split
    case isTrue h =>
      obtain ⟨hpoint, hnext⟩ := Bool.and_eq_true_iff.1 h
      exact .inr ⟨point, next, more, rfl, hpoint, hnext, by omega⟩
    case isFalse => exact .inl rfl

theorem annotationTail_of_not_point {ts : List Token}
    (h : ∀ t ∈ ts.head?, t.isPunct "." = false) (name : Token) :
    annotationTail name ts = argumentsLength name ts := by
  rcases annotationTail_cases name ts with heq | ⟨point, next, more, rfl, hpoint, -⟩
  · exact heq
  · rw [h point rfl] at hpoint
    cases hpoint

theorem annotationTail_stopsOrOpens (h : Halts rest) (name : Token) (front : List Token) :
    StopsOrOpens front rest (annotationTail name (front ++ rest)) := by
  induction hn : front.length using Nat.strongRecOn generalizing front name with
  | ind n ih =>
    rcases annotationTail_cases name (front ++ rest) with
      heq | ⟨point, next, more, hsplit, hpoint, hnext, heq⟩
    · rw [heq]
      exact argumentsLength_stopsOrOpens h name front
    · match front with
      | [] =>
        have := h.not_point point (by rw [← List.nil_append rest, hsplit]; rfl)
        simp_all
      | [t] =>
        obtain ⟨rfl, rfl⟩ := List.cons.inj hsplit
        have := h.not_name next rfl
        simp_all
      | t :: t' :: front =>
        simp only [List.cons_append, List.cons.injEq] at hsplit
        obtain ⟨rfl, rfl, rfl⟩ := hsplit
        rw [heq]
        have hshort : front.length < n := by
          rw [← hn, List.length_cons, List.length_cons]
          omega
        exact ((ih front.length hshort t' front rfl).cons t').cons t

theorem annotationLength_stopsOrOpens (h : Halts rest) (front : List Token) :
    StopsOrOpens front rest (annotationLength (front ++ rest)) := by
  rcases front with _ | ⟨t, front⟩
  · have hnone : annotationLength rest = 0 := by
      cases rest with
      | nil => rfl
      | cons t rest => rw [annotationLength, h.not_name t rfl]; rfl
    exact .inl (Nat.le_of_eq hnone)
  · rw [List.cons_append, annotationLength]
    split
    · exact (annotationTail_stopsOrOpens h t front).cons t
    · exact .inl (Nat.zero_le _)

theorem qualifierLength_stopsOrOpens (h : Halts rest) (front : List Token) :
    StopsOrOpens front rest (qualifierLength (front ++ rest)) := by
  induction front with
  | nil => exact .inl (Nat.le_of_eq h.not_qualifier)
  | cons t front ih =>
    rw [List.cons_append]
    cases ht : t.isComment with
    | true =>
      rw [qualifierLength_comment ht]
      split
      · exact .inl (Nat.zero_le _)
      · exact ih.cons t
    | false =>
      rw [qualifierLength_of_not_comment ht]
      split
      case isTrue hopening =>
        exact .opening (d := ("[", "]")) (by decide) hopening front rest
      case isFalse => exact .inl (Nat.zero_le _)

theorem read_stopsOrOpens (h : Halts rest) (t : Token) (front : List Token) :
    StopsOrOpens front rest (read t (front ++ rest)).2 := by
  unfold read
  split
  · exact .inl (Nat.zero_le _)
  split
  · exact annotationLength_stopsOrOpens h front
  split
  · dsimp only
    split
    · exact qualifierLength_stopsOrOpens h front
    · exact .inl (Nat.zero_le _)
  split
  · exact .inl (Nat.zero_le _)
  · exact .inl (Nat.zero_le _)

end Length

theorem ofTokens_of_read {t : Token} {tail rest : List Token} {item : Item}
    (h : read t (tail ++ rest) = (item, tail.length)) :
    ofTokens (t :: (tail ++ rest)) = item :: ofTokens rest := by
  rw [ofTokens, h, List.drop_left]

theorem ofTokens_cons_of_read {t : Token} {rest : List Token} {item : Item}
    (h : read t rest = (item, 0)) : ofTokens (t :: rest) = item :: ofTokens rest :=
  ofTokens_of_read (List.nil_append rest ▸ h)

/-- How many tokens an item takes beyond its first one. -/
theorem read_snd (t : Token) (rest : List Token) :
    (read t rest).2 =
      if t.isPunct "@" then annotationLength rest
      else if t.kind = .keyword ∧ isHiding t = true then qualifierLength rest
      else 0 := by
  have hhiding : isHiding t = true → modifiers.contains t.text = true := by
    intro h
    rcases Bool.or_eq_true_iff.1 h with h | h <;> rw [of_decide_eq_true h] <;> decide
  unfold read
  split
  case isTrue hcomment =>
    have hkind (kind : Token.Kind) (h : ∀ c, kind ≠ .comment c) : t.kind ≠ kind := by
      rintro rfl
      cases hkind : t.kind <;> simp_all [Token.isComment]
    simp [Token.isPunct, hkind]
  split
  · rfl
  split
  case isTrue hmodifier =>
    obtain ⟨hkind, -⟩ := Bool.and_eq_true_iff.1 hmodifier
    simp [of_decide_eq_true hkind]
  case isFalse hmodifier =>
    have hnot : ¬ (t.kind = .keyword ∧ isHiding t = true) := by
      rintro ⟨hkind, hword⟩
      exact hmodifier (Bool.and_eq_true_iff.2 ⟨decide_eq_true hkind, hhiding hword⟩)
    rw [if_neg hnot]
    split <;> rfl

/-- An item depends on the tokens that it takes, and on whether a type follows. -/
theorem read_congr {t : Token} {us vs : List Token} (hlength : (read t us).2 = (read t vs).2)
    (htake : us.take (read t us).2 = vs.take (read t us).2)
    (htype : precedesType us = precedesType vs) : read t us = read t vs := by
  unfold read at hlength htake ⊢
  split
  · rfl
  split
  · simp_all
  split
  · simp_all
  · rw [htype]

theorem read_comment {t : Token} (ht : t.isComment = true) (rest : List Token) :
    read t rest = (.comment t, 0) := if_pos ht

theorem read_punct {t : Token} {mark : String} (ht : t.isPunct mark = true) (hmark : mark ≠ "@")
    (rest : List Token) : read t rest = (.code t, 0) := by
  obtain ⟨hkind, rfl⟩ := Token.isPunct_iff.1 ht
  simp [read, Token.isComment, Token.isPunct, Token.isKeyword, hkind, hmark]

theorem read_word {t : Token} {word : String} (ht : t.isKeyword word = true)
    (hword : modifiers.contains word = false ∧ word ≠ "case") (rest : List Token) :
    read t rest = (.code t, 0) := by
  obtain ⟨hkind, rfl⟩ := Token.isKeyword_iff.1 ht
  simp only [read, Token.isComment, Token.isPunct, Token.isKeyword, hkind, hword]
  rfl

theorem ofTokens_singleton {t : Token} (h : read t [] = (.code t, 0)) :
    ofTokens [t] = [.code t] := by
  rw [ofTokens_cons_of_read h, ofTokens]

theorem ofTokens_annot {t : Token} (ht : t.isPunct "@" = true) {tail rest : List Token}
    (h : annotationLength (tail ++ rest) = tail.length) :
    ofTokens (t :: (tail ++ rest)) = .annot (t :: tail) :: ofTokens rest := by
  have hkind := (Token.isPunct_iff.1 ht).1
  apply ofTokens_of_read
  simp [read, Token.isComment, hkind, ht, h]

/-- A well-nested stretch is read into items of its own. -/
theorem ofTokens_wellNested {inner rest : List Token} (hinner : WellNested inner)
    (hhalts : Halts rest) :
    ∃ items, items.flatMap tokens = inner ∧ ofTokens (inner ++ rest) = items ++ ofTokens rest := by
  rcases ofTokens_append_cases inner rest with
    hitems | ⟨items, t, tail, after, hsplit, hlong, -⟩
  · exact hitems
  · rcases read_stopsOrOpens hhalts t tail with
      hshort | ⟨e, he, outside, opening, inside, rfl, hopening, hlength⟩
    · omega
    · have hinside : groupLength e.1 e.2 0 (inside ++ rest) ≤ inside.length :=
        groupLength_le hinner he (by rw [hsplit, List.append_cons, ← List.append_assoc])
          hopening rest
      rw [hlength, List.length_append, List.length_cons] at hlong
      omega

theorem halts_of_closing {d : String × String} (hd : d ∈ delimiters) {closing : Token}
    (h : closing.isPunct d.2 = true) (rest : List Token) : Halts (closing :: rest) := by
  obtain ⟨hpoint, hmarks⟩ : d.2 ≠ "." ∧ d.2 ≠ "(" ∧ d.2 ≠ "[" :=
    (by decide : ∀ d ∈ delimiters, d.2 ≠ "." ∧ d.2 ≠ "(" ∧ d.2 ≠ "[") d hd
  have hkind := (Token.isPunct_iff.1 h).1
  refine ⟨.of_not_comment ?_ ?_ rest, ?_⟩
  · simp [Token.isComment, hkind]
  · simp [Token.isPunct_of_isPunct h, hpoint, hmarks]
  · simp [isName, hkind]

/-- A well-nested stretch before a closing mark is read into items of its own. -/
theorem ofTokens_group {d : String × String} (hd : d ∈ delimiters) {inner : List Token}
    (hinner : WellNested inner) {closing : Token} (hclosing : closing.isPunct d.2 = true)
    (rest : List Token) :
    ∃ items, items.flatMap tokens = inner ∧
      ofTokens (inner ++ closing :: rest) = items ++ .code closing :: ofTokens rest := by
  have hat : d.2 ≠ "@" := (by decide : ∀ d ∈ delimiters, d.2 ≠ "@") d hd
  obtain ⟨items, hitems, hrest⟩ := ofTokens_wellNested hinner (halts_of_closing hd hclosing rest)
  refine ⟨items, hitems, ?_⟩
  rw [hrest, ofTokens_cons_of_read (read_punct hclosing hat rest)]

end SourceGauge.Scala.Item

namespace SourceGauge.Scala.Group

variable {d : String × String} {g : Group}

theorem IsOf.groupLength (h : g.IsOf d) (hd : d ∈ delimiters) (rest : List Token) :
    1 + Item.groupLength d.1 d.2 0 (g.inner ++ [g.closing] ++ rest) = g.tokens.length := by
  rw [List.append_assoc, Item.groupLength_append hd h.inner, List.singleton_append,
    Item.groupLength_of_closing hd h.closing]
  simp [tokens, Nat.add_comm]

/-- Read as code, a group ends with its closing mark. -/
theorem IsOf.ofTokens (h : g.IsOf d) (hd : d ∈ delimiters) (rest : List Token) :
    ∃ items, (items ++ [Item.code g.closing]).flatMap Item.tokens = g.tokens ∧
      Item.ofTokens (g.tokens ++ rest) = items ++ [Item.code g.closing] ++ Item.ofTokens rest := by
  have hat : d.1 ≠ "@" := (by decide : ∀ d ∈ delimiters, d.1 ≠ "@") d hd
  obtain ⟨items, hitems, hrest⟩ := Item.ofTokens_group hd h.inner h.closing rest
  refine ⟨.code g.opening :: items, ?_, ?_⟩
  · simp [Item.tokens, hitems, tokens]
  · rw [tokens, List.cons_append, List.append_assoc, List.singleton_append,
      Item.ofTokens_cons_of_read (Item.read_punct h.opening hat _), hrest]
    simp

end SourceGauge.Scala.Group
