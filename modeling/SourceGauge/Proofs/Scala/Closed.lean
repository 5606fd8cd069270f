import Mathlib
import SourceGauge.Proofs.Scala.Awaited

/-! Stretches of tokens that are read into items of their own. An item takes groups in parentheses
or brackets whole. Where all of these are closed and no item goes on, the tokens can be cut, and
what the items before the cut take is well nested. -/
namespace SourceGauge.Scala

/-- Every group in parentheses or brackets that opens among the tokens ends there as well. -/
def ParensMatched (ts : List Token) : Prop :=
  ∀ d ∈ delimiters, d.1 ≠ "\x7b" → ∀ outside opening inside, ts = outside ++ opening :: inside →
    opening.isPunct d.1 = true → ∃ inner closing rest,
      inside = inner ++ closing :: rest ∧ WellNested inner ∧ closing.isPunct d.2 = true

/-- No item of the tokens `ts` goes on in `rest`, and none depends on what stands there. -/
structure Parts (ts rest : List Token) : Prop extends Item.EndsItem rest where
  not_type : Item.precedesType rest = false
  not_part : ∀ next ∈ rest.head?, Item.isName next = true →
    ∀ last ∈ ts.getLast?, last.isPunct "@" = false ∧ last.isPunct "." = false

/-- A reader takes whole groups of `ts`, and no more when `rest` follows. -/
structure Takes (reach : List Token → Nat) (ts rest : List Token) : Prop where
  le : reach ts ≤ ts.length
  nested : WellNested (ts.take (reach ts))
  append : reach (ts ++ rest) = reach ts

section Cut
variable {t : Token} {front ts rest : List Token} {reach : List Token → Nat}

theorem Matched.parensMatched (h : Matched ts) : ParensMatched ts := fun d hd _ => h d hd

theorem ParensMatched.of_append (h : ParensMatched (front ++ ts)) : ParensMatched ts :=
  fun d hd hbrace outside opening inside hts =>
    h d hd hbrace (front ++ outside) opening inside (by rw [hts, List.append_assoc])

theorem ParensMatched.tail (h : ParensMatched (t :: ts)) : ParensMatched ts :=
  @ParensMatched.of_append [t] ts h

theorem Parts.of_append (h : Parts (front ++ ts) rest) : Parts ts rest where
  toEndsItem := h.toEndsItem
  not_type := h.not_type
  not_part next hnext hname last hlast :=
    h.not_part next hnext hname last (by rw [List.getLast?_append, Option.mem_def.1 hlast]; rfl)

theorem Parts.tail (h : Parts (t :: ts) rest) : Parts ts rest := @Parts.of_append [t] ts rest h

/-- Behind the last token no name follows, when the token is a point or an at sign. -/
theorem Parts.not_name {last : Token} (h : Parts (front ++ [last]) rest)
    (hlast : last.isPunct "@" = true ∨ last.isPunct "." = true) :
    ∀ next ∈ rest.head?, Item.isName next = false := by
  intro next hnext
  by_contra hname
  obtain ⟨hat, hpoint⟩ := h.not_part next hnext (by simpa using hname) last List.getLast?_concat
  simp [hat, hpoint] at hlast

/-- Such tokens part what stands before them. -/
theorem Item.Halts.parts (h : Item.Halts rest) (htype : Item.precedesType rest = false)
    (ts : List Token) : Parts ts rest where
  toEndsItem := h.toEndsItem
  not_type := htype
  not_part next hnext hname := by
    rw [h.not_name next hnext] at hname
    cases hname

theorem parts_closing {d : String × String} (hd : d ∈ delimiters) {closing : Token}
    (h : closing.isPunct d.2 = true) (ts rest : List Token) : Parts ts (closing :: rest) := by
  refine (Item.halts_of_closing hd h rest).parts ?_ ts
  have hkind := (Token.isPunct_iff.1 h).1
  simp [Item.precedesType, Token.isComment, Token.isKeyword, hkind]

theorem parts_nil (ts : List Token) : Parts ts [] where
  not_point := by simp
  not_arguments := by simp
  not_qualifier := rfl
  not_type := rfl
  not_part := by simp

theorem Takes.none (h : reach ts = 0) (hrest : reach (ts ++ rest) = 0) : Takes reach ts rest where
  le := by rw [h]; exact Nat.zero_le _
  nested := by rw [h, List.take_zero]; exact .nil
  append := hrest.trans h.symm

theorem Takes.congr {other : List Token → Nat} (h : Takes other ts rest)
    (hts : reach ts = other ts) (hrest : reach (ts ++ rest) = other (ts ++ rest)) :
    Takes reach ts rest where
  le := hts ▸ h.le
  nested := hts ▸ h.nested
  append := by rw [hrest, h.append, hts]

theorem Takes.cons {more : List Token → Nat} (h : Takes more ts rest)
    (ht : t.isOpening = false ∧ t.isClosing = false) (hts : reach (t :: ts) = 1 + more ts)
    (hrest : reach (t :: (ts ++ rest)) = 1 + more (ts ++ rest)) : Takes reach (t :: ts) rest where
  le := by
    rw [hts, List.length_cons, Nat.add_comm]
    exact Nat.succ_le_succ h.le
  nested := by
    rw [hts, Nat.add_comm, List.take_succ_cons]
    exact h.nested.cons ht
  append := by rw [List.cons_append, hrest, h.append, hts]

/-- A group is taken whole. -/
theorem Takes.group {d : String × String} (hd : d ∈ delimiters) (hbrace : d.1 ≠ "\x7b")
    (h : ParensMatched (t :: ts)) (ht : t.isPunct d.1 = true)
    (hreach : ∀ us, reach (t :: us) = 1 + Item.groupLength d.1 d.2 0 us) :
    Takes reach (t :: ts) rest := by
  obtain ⟨inner, closing, more, rfl, hinner, hclosing⟩ := h d hd hbrace [] t ts rfl ht
  have hlength (us : List Token) :
      reach (t :: (inner ++ closing :: us)) = 1 + (inner.length + 1) := by
    rw [hreach, Item.groupLength_append hd hinner, Item.groupLength_of_closing hd hclosing]
  refine ⟨?_, ?_, ?_⟩
  · rw [hlength, List.length_cons, List.length_append, List.length_cons]
    omega
  · have htake : (t :: (inner ++ closing :: more)).take (1 + (inner.length + 1)) =
        t :: (inner ++ [closing]) := by
      rw [Nat.add_comm, List.take_succ_cons, List.take_append]
      simp
    rw [hlength, htake]
    exact .group hd ht hclosing hinner .nil
  · rw [List.cons_append, List.append_assoc, List.cons_append, hlength, hlength]

end Cut

namespace Item
variable {t : Token} {ts rest : List Token}

theorem argumentsLength_takes (h : ParensMatched ts) (hrest : EndsItem rest) (name : Token) :
    Takes (argumentsLength name) ts rest := by
  cases ts with
  | nil => exact .none rfl (argumentsLength_of_not_opening hrest.not_arguments name)
  | cons t ts =>
    by_cases ht : (t.isPunct "(" && t.start.line = name.stop.line) = true
    · refine .group (d := ("(", ")")) (by decide) (by decide) h
        (Bool.and_eq_true_iff.1 ht).1 fun us => ?_
      rw [argumentsLength, if_pos ht]
    · have hnone (us : List Token) : argumentsLength name (t :: us) = 0 := by
        rw [argumentsLength, if_neg ht]
      exact .none (hnone ts) (hnone (ts ++ rest))

theorem annotationTail_takes {name : Token} (h : ParensMatched ts)
    (hparts : Parts (name :: ts) rest) : Takes (annotationTail name) ts rest := by
  induction hlength : ts.length using Nat.strongRecOn generalizing ts name with
  | ind n ih =>
    have harguments := argumentsLength_takes h hparts.toEndsItem name
    match ts with
    | [] => exact harguments.congr rfl (annotationTail_of_not_point hparts.not_point name)
    | [t] =>
      refine harguments.congr rfl ?_
      rcases annotationTail_cases name ([t] ++ rest) with
        heq | ⟨point, next, more, hsplit, hpoint, hnext, -⟩
      · exact heq
      · obtain ⟨rfl, rfl⟩ := List.cons.inj hsplit
        have hname := @Parts.not_name [name] _ _ hparts (.inr hpoint) next rfl
        rw [hname] at hnext
        cases hnext
    | point :: next :: ts =>
      by_cases hgo : (point.isPunct "." && isName next) = true
      · obtain ⟨hpoint, hnext⟩ := Bool.and_eq_true_iff.1 hgo
        have hshort : ts.length < n := by
          rw [← hlength, List.length_cons, List.length_cons]
          omega
        have hts : Takes (fun us => 1 + annotationTail next us.tail) (next :: ts) rest :=
          (ih ts.length hshort h.tail.tail hparts.tail.tail rfl).cons
            (Token.not_delimiter_of_isName hnext) rfl rfl
        have hreach (us : List Token) :
            annotationTail name (point :: next :: us) = 1 + (1 + annotationTail next us) := by
          rw [annotationTail, if_pos hgo]
          omega
        exact hts.cons (Token.not_delimiter_of_isPunct hpoint (by decide)) (hreach ts)
          (hreach (ts ++ rest))
      · have hreach (us : List Token) : annotationTail name (point :: next :: us) =
            argumentsLength name (point :: next :: us) := by
          rw [annotationTail, if_neg hgo]
        exact harguments.congr (hreach ts) (hreach (ts ++ rest))

theorem annotationLength_takes {mark : Token} (hmark : mark.isPunct "@" = true)
    (h : ParensMatched ts) (hparts : Parts (mark :: ts) rest) :
    Takes annotationLength ts rest := by
  cases ts with
  | nil =>
    refine .none rfl ?_
    cases rest with
    | nil => rfl
    | cons next rest =>
      have hname := @Parts.not_name [] _ _ hparts (.inl hmark) next rfl
      rw [List.nil_append, annotationLength, hname]
      rfl
  | cons name ts =>
    by_cases hname : isName name = true
    · have hreach (us : List Token) :
          annotationLength (name :: us) = 1 + annotationTail name us := by
        rw [annotationLength, if_pos hname]
      exact (annotationTail_takes h.tail hparts.tail).cons (Token.not_delimiter_of_isName hname)
        (hreach ts) (hreach (ts ++ rest))
    · have hnone (us : List Token) : annotationLength (name :: us) = 0 := by
        rw [annotationLength, if_neg hname]
      exact .none (hnone ts) (hnone (ts ++ rest))

theorem qualifierLength_takes (h : ParensMatched ts) (hrest : EndsItem rest) :
    Takes qualifierLength ts rest := by
  induction ts with
  | nil => exact .none rfl hrest.not_qualifier
  | cons t ts ih =>
    cases ht : t.isComment with
    | true =>
      have hts := ih h.tail
      have hreach := qualifierLength_comment ht
      by_cases hnone : qualifierLength ts = 0
      · refine .none ?_ ?_
        · rw [hreach, if_pos hnone]
        · rw [List.cons_append, hreach, if_pos (hts.append.trans hnone)]
      · refine hts.cons (Token.not_delimiter_of_isComment ht) ?_ ?_
        · rw [hreach, if_neg hnone]
        · rw [hreach, hts.append, if_neg hnone]
    | false =>
      have hreach := qualifierLength_of_not_comment ht
      by_cases hopening : t.isPunct "[" = true
      · refine .group (d := ("[", "]")) (by decide) (by decide) h hopening fun us => ?_
        rw [hreach, if_pos hopening]
      · refine .none ?_ ?_
        · rw [hreach, if_neg hopening]
        · rw [List.cons_append, hreach, if_neg hopening]

theorem precedesType_append (h : precedesType rest = false) (ts : List Token) :
    precedesType (ts ++ rest) = precedesType ts := by
  rw [precedesType, precedesType, List.find?_append]
  cases ts.find? (!·.isComment) with
  | none => exact h
  | some t => rfl

/-- A delimiter is read as code. -/
theorem read_of_delimiter (ht : ¬ (t.isOpening = false ∧ t.isClosing = false)) (ts : List Token) :
    read t ts = (.code t, 0) := by
  have hkind : t.kind = .punct := by
    by_contra hkind
    exact ht (Token.not_delimiter_of_kind hkind)
  refine read_punct (Token.isPunct_iff.2 ⟨hkind, rfl⟩) ?_ ts
  intro hat
  have hpunct : t.isPunct "@" = true := Token.isPunct_iff.2 ⟨hkind, hat⟩
  exact ht (Token.not_delimiter_of_isPunct hpunct (by decide))

/-- The first item of such tokens, and how many tokens it takes, do not depend on what follows. An
item that is no code is well nested. -/
theorem read_append (h : ParensMatched (t :: ts)) (hparts : Parts (t :: ts) rest) :
    read t (ts ++ rest) = read t ts ∧ (read t ts).2 ≤ ts.length ∧
      ((∃ c, (read t ts).1 = .code c) ∨ WellNested (read t ts).1.tokens) := by
  by_cases hdelimiter : t.isOpening = false ∧ t.isClosing = false
  case neg =>
    rw [read_of_delimiter hdelimiter, read_of_delimiter hdelimiter]
    exact ⟨rfl, Nat.zero_le _, .inl ⟨t, rfl⟩⟩
  have htakes : Takes (fun us => (read t us).2) ts rest := by
    simp only [read_snd]
    by_cases hmark : t.isPunct "@" = true
    · simp only [if_pos hmark]
      exact annotationLength_takes hmark h.tail hparts
    by_cases hhiding : t.kind = .keyword ∧ isHiding t = true
    · simp only [if_neg hmark, if_pos hhiding]
      exact qualifierLength_takes h.tail hparts.toEndsItem
    · simp only [if_neg hmark, if_neg hhiding]
      exact .none rfl rfl
  have hread : read t (ts ++ rest) = read t ts := by
    refine read_congr htakes.append ?_ (precedesType_append hparts.not_type ts)
    rw [htakes.append, List.take_append_of_le_length htakes.le]
  refine ⟨hread, htakes.le, .inr ?_⟩
  rw [tokens_read]
  exact htakes.nested.cons hdelimiter

/-- The items of such tokens, when others follow. Items that are no code are well nested. -/
theorem ofTokens_append (h : ParensMatched ts) (hparts : Parts ts rest) :
    ofTokens (ts ++ rest) = ofTokens ts ++ ofTokens rest ∧
      ∀ item ∈ ofTokens ts, (∃ c, item = .code c) ∨ WellNested item.tokens := by
  induction ts using ofTokens.induct with
  | case1 => simp [ofTokens]
  | case2 t ts ih =>
    obtain ⟨hread, hle, hitem⟩ := read_append h hparts
    have hsplit : t :: ts = (t :: ts.take (read t ts).2) ++ ts.drop (read t ts).2 := by simp
    obtain ⟨hitems, hnested⟩ := ih (.of_append (hsplit ▸ h)) (.of_append (hsplit ▸ hparts))
    have hts : ofTokens (t :: ts) = (read t ts).1 :: ofTokens (ts.drop (read t ts).2) := by
      rw [ofTokens]
    rw [hts]
    refine ⟨?_, List.forall_mem_cons.2 ⟨hitem, hnested⟩⟩
    rw [List.cons_append, ofTokens, hread, List.drop_append_of_le_length hle, hitems,
      List.cons_append]

end Item

/-- Every group is closed, and the last token is a closing brace, if there is one. -/
structure Closed (ts : List Token) : Prop where
  matched : Matched ts
  brace : ∀ t ∈ ts.getLast?, t.isPunct "\x7d" = true

/-- A closing brace closes no parenthesis and no bracket. -/
theorem Matched.parensMatched_of_concat {ts : List Token} {brace : Token}
    (h : Matched (ts ++ [brace])) (hbrace : brace.isPunct "\x7d" = true) : ParensMatched ts := by
  intro d hd hopens outside opening inside hts ht
  obtain ⟨inner, closing, rest, hinside, hinner, hclosing⟩ :=
    h d hd outside opening (inside ++ [brace]) (by rw [hts]; simp) ht
  rcases concat_eq_split.1 hinside with ⟨-, rfl, -⟩ | ⟨mid, -, rfl⟩
  · rw [Token.isPunct_of_isPunct hbrace] at hclosing
    obtain ⟨-, hsame⟩ := delimiters_apart ("\x7b", "\x7d") (by decide) d hd
    exact absurd (hsame.2 (of_decide_eq_true hclosing)).symm hopens
  · exact ⟨inner, closing, mid, rfl, hinner, hclosing⟩

/-- Such tokens are read into the same items whatever follows, and the last item is the closing
brace. -/
theorem Item.ofTokens_of_closed {ts : List Token} (h : Closed ts) :
    (∀ rest, ofTokens (ts ++ rest) = ofTokens ts ++ ofTokens rest) ∧
      ∀ item ∈ (ofTokens ts).getLast?, ∃ t, item = .code t ∧ t.isPunct "\x7d" = true := by
  rcases List.eq_nil_or_concat ts with rfl | ⟨ts, brace, rfl⟩
  · simp [ofTokens]
  rw [List.concat_eq_append] at h ⊢
  have hbrace : brace.isPunct "\x7d" = true := h.brace brace List.getLast?_concat
  have hparens := h.matched.parensMatched_of_concat hbrace
  have hread (rest : List Token) : ofTokens (brace :: rest) = .code brace :: ofTokens rest :=
    ofTokens_cons_of_read (read_punct hbrace (by decide) rest)
  have hitems (rest : List Token) :
      ofTokens (ts ++ brace :: rest) = ofTokens ts ++ .code brace :: ofTokens rest := by
    rw [← hread]
    have hparts : Parts ts (brace :: rest) :=
      parts_closing (d := ("\x7b", "\x7d")) (by decide) hbrace ts rest
    exact (ofTokens_append hparens hparts).1
  have halone : ofTokens (ts ++ [brace]) = ofTokens ts ++ [.code brace] := by
    rw [hitems, ofTokens]
  rw [halone]
  refine ⟨fun rest => ?_, ?_⟩
  · rw [List.append_assoc, List.singleton_append, hitems, List.append_assoc, List.singleton_append]
  · simpa using hbrace

end SourceGauge.Scala
