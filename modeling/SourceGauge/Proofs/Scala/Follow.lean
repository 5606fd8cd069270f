import Mathlib
import SourceGauge.Proofs.Scala.BreakStyle

/-! Tokens with other text behind them. A reader may look at what follows its token, but it sees no
difference when nothing follows any more, when a new line follows, when a new line stands behind
all that followed, or when the same follows up to a line break. -/
namespace SourceGauge.Scala.Lexeme
open Text (isBreak take_one_add)
open Text.BreakStyle (eq_lf_or_cr)

/-- The second text may stand behind a token where the first stood. -/
inductive Follows : List Char → List Char → Prop
  | ending (u : List Char) : Follows u []
  | line {u : List Char} (hu : u ≠ []) (v : List Char) : Follows u ('\n' :: v)
  | longer {u : List Char} (hu : u ≠ []) (v : List Char) : Follows u (u ++ '\n' :: v)
  | behind (w : List Char) {b : Char} (hb : isBreak b = true) (u v : List Char) :
    Follows (w ++ b :: u) (w ++ b :: v)

/-- How far a reader reaches does not depend on what follows. -/
def Stable (reach : List Char → Nat) : Prop :=
  ∀ cs v, Follows (cs.drop (reach cs)) v → reach (cs.take (reach cs) ++ v) = reach cs

section Follows
variable {c : Char} {u v w cs : List Char} {n : Nat}

theorem drop_one_add (c : Char) (n : Nat) (cs : List Char) :
    (c :: cs).drop (1 + n) = cs.drop n := by
  rw [Nat.add_comm, List.drop_succ_cons]

theorem Follows.eq_nil (h : Follows u v) (hu : u = []) : v = [] := by
  cases h with
  | ending => rfl
  | line hne => exact absurd hu hne
  | longer hne => exact absurd hu hne
  | behind w => simp at hu

theorem Follows.take_append (h : Follows (cs.drop n) v) : (cs.take n ++ v).take n = cs.take n := by
  by_cases hend : cs.drop n = []
  · rw [h.eq_nil hend, List.append_nil, List.take_take, Nat.min_self]
  · have hlength : (cs.take n).length = n :=
      List.length_take_of_le (Nat.le_of_lt (by simpa using hend))
    exact List.take_left' hlength

theorem Follows.drop_append (h : Follows (cs.drop n) v) : (cs.take n ++ v).drop n = v := by
  have hsplit := List.take_append_drop n (cs.take n ++ v)
  rw [h.take_append] at hsplit
  exact List.append_cancel_left hsplit

/-- A reader that stops at a line break, and before what followed, stops at once. It may look at the
first character and the one behind it. -/
theorem Follows.stops {reach : List Char → Nat} (h : Follows (c :: cs) v) (hnil : reach [] = 0)
    (hbreak : ∀ b rest, isBreak b = true → reach (b :: rest) = 0)
    (hlonger : ∀ rest, reach (c :: cs ++ '\n' :: rest) = 0)
    (hsame : ∀ ds, ds.head? = cs.head? → reach (c :: ds) = 0) : reach v = 0 := by
  generalize hu : c :: cs = u at h hlonger
  cases h with
  | ending => exact hnil
  | line _ rest => exact hbreak '\n' rest rfl
  | longer _ rest => exact hlonger rest
  | behind w hb x y =>
    cases w with
    | nil => exact hbreak _ y hb
    | cons d w =>
      obtain ⟨rfl, rfl⟩ := List.cons.inj hu
      refine hsame (w ++ _ :: y) ?_
      cases w <;> rfl

theorem isPrefix_of_append_line {front rest : List Char} {b : Char} (hb : b ∉ w)
    (hw : w <+: front ++ b :: rest) : w <+: front := by
  obtain ⟨behind, hsplit⟩ := hw
  rcases List.append_eq_append_iff.1 hsplit with ⟨more, rfl, -⟩ | ⟨more, rfl, hmore⟩
  · exact List.prefix_append w more
  · cases more with
    | nil => simp
    | cons x more =>
      obtain ⟨rfl, -⟩ := List.cons.inj hmore
      simp at hb

/-- No mark within a line appears where there was none. -/
theorem Follows.isPrefix (h : Follows (cs.drop n) v) (hline : ∀ c ∈ w, isBreak c = false)
    (hw : w <+: cs.take n ++ v) : w <+: cs := by
  have hnot {b : Char} (hb : isBreak b = true) : b ∉ w := by
    intro hmem
    rw [hline b hmem] at hb
    cases hb
  generalize hu : cs.drop n = u at h
  cases h with
  | ending =>
    rw [List.append_nil] at hw
    exact hw.trans (List.take_prefix n cs)
  | line _ rest => exact (isPrefix_of_append_line (hnot rfl) hw).trans (List.take_prefix n cs)
  | longer _ rest =>
    rw [← hu, ← List.append_assoc, List.take_append_drop] at hw
    exact isPrefix_of_append_line (hnot rfl) hw
  | behind front hb x y =>
    rw [← List.append_assoc] at hw
    rw [← List.take_append_drop n cs, hu, ← List.append_assoc]
    exact (isPrefix_of_append_line (hnot hb) hw).trans (List.prefix_append _ _)

theorem Follows.ne_cons {d : Char} (h : Follows (cs.drop n) v) (hd : isBreak d = false)
    (hcs : ∀ more, cs ≠ d :: more) (more : List Char) : cs.take n ++ v ≠ d :: more := by
  intro heq
  have hmark : [d] <+: cs :=
    h.isPrefix (by simpa using hd) (heq ▸ List.prefix_append [d] more)
  obtain ⟨rest, rfl⟩ := hmark
  exact hcs rest rfl

end Follows

section Readers
variable {v : List Char}

theorem stable_runLength {p : Char → Bool} (hp : ∀ b, isBreak b = true → p b = false) :
    Stable (runLength p) := by
  intro cs v h
  induction cs with
  | nil => rw [h.eq_nil rfl]; rfl
  | cons c cs ih =>
    rw [runLength_cons] at h ⊢
    split
    case isTrue hc =>
      rw [if_pos hc, drop_one_add] at h
      rw [take_one_add, List.cons_append, runLength_cons, if_pos hc, ih h]
    case isFalse hc =>
      have hnone (ds : List Char) : runLength p (c :: ds) = 0 := by
        rw [runLength_cons, if_neg hc]
      rw [if_neg hc] at h
      refine h.stops rfl (fun b rest hb => ?_) (fun rest => hnone _) fun ds _ => hnone ds
      rw [runLength_cons, hp b hb]
      rfl

theorem delimitedLength_cons (close c : Char) (cs : List Char) :
    delimitedLength close (c :: cs) =
      if c = close then 1 else if isBreak c then 0 else 1 + delimitedLength close cs := by
  unfold delimitedLength
  rw [runLength_cons]
  by_cases hclose : c = close
  · simp [hclose, oneIf]
  · by_cases hbreak : isBreak c = true
    · simp [hclose, hbreak, oneIf]
    · simp only [hclose, hbreak, ne_eq, not_false_eq_true, decide_true, Bool.not_false,
        Bool.and_self, if_true, if_false, drop_one_add, Nat.add_assoc, Bool.false_eq_true]

theorem stable_delimitedLength {close : Char} (hclose : isBreak close = false) :
    Stable (delimitedLength close) := by
  intro cs v h
  induction cs with
  | nil => rw [h.eq_nil rfl]; rfl
  | cons c cs ih =>
    rw [delimitedLength_cons] at h ⊢
    split_ifs at h ⊢ with hend hbreak
    · rw [List.take_succ_cons, List.cons_append, delimitedLength_cons, if_pos hend]
    · have hnone {b : Char} (hb : isBreak b = true) (rest : List Char) :
          delimitedLength close (b :: rest) = 0 := by
        have hne : b ≠ close := by
          rintro rfl
          rw [hb] at hclose
          cases hclose
        rw [delimitedLength_cons, if_neg hne, if_pos hb]
      exact h.stops rfl (fun _ rest hb => hnone hb rest) (fun _ => hnone hbreak _)
        fun ds _ => hnone hbreak ds
    · rw [drop_one_add] at h
      rw [take_one_add, List.cons_append, delimitedLength_cons, if_neg hend, if_neg hbreak, ih h]

theorem stable_numberLength : Stable numberLength := by
  intro cs v h
  induction cs with
  | nil => rw [h.eq_nil rfl]; rfl
  | cons c cs ih =>
    rw [numberLength] at h ⊢
    split
    case isTrue hc =>
      rw [if_pos hc, drop_one_add] at h
      rw [take_one_add, List.cons_append, numberLength, ih h, if_pos]
      -- The digit behind a point belongs to the number, so it stays.
      rw [Bool.or_eq_true] at hc ⊢
      refine hc.imp_right fun hpoint => ?_
      cases cs with
      | nil => simp at hpoint
      | cons d cs =>
        have hdigit : d.isDigit = true := by simp at hpoint; exact hpoint.2
        rw [numberLength, if_pos (by simp [Char.isAlphanum, hdigit]), take_one_add]
        exact hpoint
    case isFalse hc =>
      rw [if_neg hc] at h
      refine h.stops rfl numberLength_break (fun rest => ?_) fun ds hds => ?_
      · rw [List.cons_append, numberLength, if_neg]
        cases cs with
        | nil =>
          simp at hc ⊢
          exact hc
        | cons d cs => exact hc
      · rw [numberLength, hds, if_neg hc]

theorem stable_operatorLength : Stable operatorLength := by
  intro cs v h
  induction cs using operatorLength.induct with
  | case1 rest =>
    refine h.stops rfl operatorLength_break (fun _ => rfl) fun ds hds => ?_
    obtain ⟨more, rfl⟩ := List.head?_eq_some_iff.1 hds
    rfl
  | case2 rest =>
    refine h.stops rfl operatorLength_break (fun _ => rfl) fun ds hds => ?_
    obtain ⟨more, rfl⟩ := List.head?_eq_some_iff.1 hds
    rfl
  | case3 c rest hline hblock hop ih =>
    rw [operatorLength.eq_3 _ _ hline hblock, if_pos hop] at h ⊢
    rw [drop_one_add] at h
    rw [take_one_add, List.cons_append, operatorLength.eq_3, if_pos hop, ih h]
    · exact fun more hc => h.ne_cons (by decide) (fun ds => hline ds hc) more
    · exact fun more hc => h.ne_cons (by decide) (fun ds => hblock ds hc) more
  | case4 c rest hline hblock hop =>
    have hnone (more : List Char) : operatorLength (c :: more) = 0 := by
      rw [operatorLength.eq_3, if_neg hop]
      · rintro _ rfl
        exact absurd rfl hop
      · rintro _ rfl
        exact absurd rfl hop
    rw [hnone] at h ⊢
    exact h.stops rfl operatorLength_break (fun _ => hnone _) fun _ _ => hnone _
  | case5 => rw [h.eq_nil rfl]; rfl

theorem stable_blockLength (outer : Nat) : Stable (blockLength outer) := by
  intro cs v h
  induction outer, cs using blockLength.induct with
  | case1 outer rest ih =>
    rw [blockLength, Nat.add_comm 2] at h ⊢
    rw [List.take_succ_cons, List.take_succ_cons, List.cons_append, List.cons_append, blockLength,
      ih h, Nat.add_comm]
  | case2 rest => rfl
  | case3 outer rest ih =>
    rw [blockLength, Nat.add_comm 2] at h ⊢
    rw [List.take_succ_cons, List.take_succ_cons, List.cons_append, List.cons_append, blockLength,
      ih h, Nat.add_comm]
  | case4 outer c rest hopen hclose ih =>
    rw [blockLength.eq_4 _ _ _ hopen hclose] at h ⊢
    rw [drop_one_add] at h
    rw [take_one_add, List.cons_append, blockLength.eq_4, ih h]
    · exact fun more hc => h.ne_cons (by decide) (fun ds => hopen ds hc) more
    · exact fun more hc => h.ne_cons (by decide) (fun ds => hclose ds hc) more
  | case5 => rw [h.eq_nil rfl]; rfl

theorem stable_rawStringLength : Stable rawStringLength := by
  intro cs v h
  induction cs using rawStringLength.induct with
  | case1 rest =>
    rw [rawStringLength, Nat.add_comm 3] at h ⊢
    rw [List.take_succ_cons, List.take_succ_cons, List.take_succ_cons, List.cons_append,
      List.cons_append, List.cons_append, rawStringLength, stable_runLength ne_quote_break rest v h,
      Nat.add_comm]
  | case2 c rest hquotes ih =>
    rw [rawStringLength.eq_2 _ _ hquotes] at h ⊢
    rw [drop_one_add] at h
    rw [take_one_add, List.cons_append, rawStringLength.eq_2, ih h]
    intro more hc heq
    have hmarks : ['"', '"'] <+: rest :=
      h.isPrefix (by simp [isBreak]) (heq ▸ List.prefix_append ['"', '"'] more)
    obtain ⟨more, rfl⟩ := hmarks
    exact hquotes more hc rfl
  | case3 => rw [h.eq_nil rfl]; rfl

theorem stable_stringLength : Stable stringLength := by
  intro cs v h
  induction cs using stringLength.induct with
  | case1 c rest ih =>
    rw [stringLength, Nat.add_comm 2] at h ⊢
    rw [List.take_succ_cons, List.take_succ_cons, List.cons_append, List.cons_append, stringLength,
      ih h, Nat.add_comm]
  | case2 rest => rfl
  | case3 c rest hescape hquote hbreak =>
    have hnone (more : List Char) : stringLength (c :: more) = 0 := stringLength_break c more hbreak
    rw [hnone] at h ⊢
    exact h.stops rfl stringLength_break (fun _ => hnone _) fun _ _ => hnone _
  | case4 c rest hescape hquote hbreak ih =>
    rw [stringLength.eq_3 _ _ hescape hquote, if_neg hbreak] at h ⊢
    rw [drop_one_add] at h
    rw [take_one_add, List.cons_append, stringLength.eq_3 _ _ _ hquote, if_neg hbreak, ih h]
    -- A backslash that takes nothing along stands at the very end.
    intro d more hc heq
    cases rest with
    | nil =>
      rw [h.eq_nil rfl] at heq
      cases heq
    | cons x rest => exact hescape x rest hc rfl
  | case5 => rw [h.eq_nil rfl]; rfl

theorem quoted_of_follows {cs : List Char} (h : Follows (cs.drop (quoted cs).length) v) :
    quoted (cs.take (quoted cs).length ++ v) = quoted cs := by
  cases cs with
  | nil => rw [h.eq_nil rfl]; rfl
  | cons c rest =>
    by_cases hslash : c = '\\'
    · subst hslash
      cases rest with
      | nil => rw [h.eq_nil rfl]; rfl
      | cons d rest =>
        rw [quoted, Nat.add_comm 2] at h ⊢
        rw [List.take_succ_cons, List.take_succ_cons, List.cons_append, List.cons_append, quoted,
          stable_delimitedLength rfl rest v h, Nat.add_comm]
    · rw [Scanner.quoted_of_ne hslash] at h ⊢
      split
      case isTrue hchar =>
        obtain ⟨more, rfl⟩ : ∃ more, rest = '\'' :: more := by
          simp only [Bool.and_eq_true, decide_eq_true_eq] at hchar
          exact List.head?_eq_some_iff.1 hchar.2
        rw [List.take_succ_cons, List.take_succ_cons, List.cons_append, List.cons_append,
          Scanner.quoted_of_ne hslash]
        exact if_pos hchar
      case isFalse hchar =>
        rw [if_neg hchar] at h
        rw [List.drop_zero] at h
        rw [List.take_zero, List.nil_append]
        generalize hu : c :: rest = u at h
        cases h with
        | ending => rfl
        | line _ rest => exact Scanner.quoted_of_ne (by decide)
        | longer _ behind =>
          rw [← hu, List.cons_append, Scanner.quoted_of_ne hslash, if_neg]
          cases rest with
          | nil => simp
          | cons d rest => exact hchar
        | behind w hb x y =>
          cases w with
          | nil =>
            rcases eq_lf_or_cr hb with rfl | rfl <;> exact Scanner.quoted_of_ne (by decide)
          | cons d w =>
            obtain ⟨rfl, rfl⟩ := List.cons.inj hu
            rw [List.cons_append, Scanner.quoted_of_ne hslash, if_neg]
            cases w <;> exact hchar

/-- A block comment that is a doc comment stays one. -/
theorem docMark_of_follows {cs : List Char} (h : Follows (cs.drop (blockLength 0 cs)) v) :
    let after := cs.take (blockLength 0 cs) ++ v
    (after[0]? = some '*' ∧ after[1]? ≠ some '/') ↔ (cs[0]? = some '*' ∧ cs[1]? ≠ some '/') := by
  intro after
  by_cases hstar : cs.head? = some '*'
  · obtain ⟨more, rfl⟩ := List.head?_eq_some_iff.1 hstar
    by_cases hslash : more.head? = some '/'
    · obtain ⟨more, rfl⟩ := List.head?_eq_some_iff.1 hslash
      simp [after, blockLength]
    · have hmore (ds : List Char) : more ≠ '/' :: ds := by
        rintro rfl
        exact hslash rfl
      have hstep : blockLength 0 ('*' :: more) = 1 + blockLength 0 more := by
        rw [blockLength.eq_4]
        · simp
        · exact fun ds _ => hmore ds
      rw [hstep, drop_one_add] at h
      have hafter : (more.take (blockLength 0 more) ++ v).head? ≠ some '/' := by
        intro hhead
        obtain ⟨ds, hds⟩ := List.head?_eq_some_iff.1 hhead
        exact h.ne_cons (by decide) hmore ds hds
      rw [List.head?_eq_getElem?] at hafter hslash
      simp only [after, hstep, take_one_add, List.cons_append, List.getElem?_cons_zero,
        List.getElem?_cons_succ, ne_eq, hafter, hslash]
  · have hafter : after.head? ≠ some '*' := by
      intro hhead
      obtain ⟨ds, hds⟩ := List.head?_eq_some_iff.1 hhead
      refine h.ne_cons (by decide) (fun more hmore => hstar ?_) ds hds
      rw [hmore]
      rfl
    rw [List.head?_eq_getElem?] at hstar hafter
    simp [hstar, hafter]

end Readers

section Extent
variable {c : Char} {rest : List Char}

/-- The token that begins with `c` is read in the same way when other text follows it. -/
def Settled (c : Char) (rest : List Char) : Prop :=
  ∀ v, Follows (rest.drop (extent c rest).length) v →
    extent c (rest.take (extent c rest).length ++ v) = extent c rest

/-- Tokens of one kind, whose reader looks no further than it reaches. -/
theorem Stable.settled {reach : List Char → Nat} (h : Stable reach) {kind : Token.Kind}
    (hextent : ∀ cs, extent c cs = ⟨kind, reach cs⟩) (rest : List Char) : Settled c rest := by
  intro v hv
  rw [hextent] at hv ⊢
  rw [hextent, h rest v hv]

theorem settled_lineComment (more : List Char) : Settled '/' ('/' :: more) := by
  intro v h
  rw [extent_lineComment] at h ⊢
  rw [drop_one_add] at h
  have hmore := stable_runLength (fun b hb => by rw [hb]; rfl) more v h
  rw [take_one_add, List.cons_append, extent_lineComment, hmore]

theorem settled_blockComment (more : List Char) : Settled '/' ('*' :: more) := by
  intro v h
  rw [extent_blockComment] at h ⊢
  rw [drop_one_add] at h
  rw [take_one_add, List.cons_append, extent_blockComment, stable_blockLength 0 more v h]
  simp only [docMark_of_follows h]

theorem settled_slash (hline : ¬ ['/'] <+: rest) (hblock : ¬ ['*'] <+: rest) :
    Settled '/' rest := by
  intro v h
  rw [extent_slash hline hblock] at h ⊢
  rw [extent_slash (mt (h.isPrefix (by simp [isBreak])) hline)
    (mt (h.isPrefix (by simp [isBreak])) hblock), stable_operatorLength rest v h]

theorem settled_rawString (more : List Char) : Settled '"' ('"' :: '"' :: more) := by
  intro v h
  rw [extent_rawString, Nat.add_comm] at h ⊢
  rw [List.take_succ_cons, List.take_succ_cons, List.cons_append, List.cons_append,
    extent_rawString, stable_rawStringLength more v h, Nat.add_comm]

theorem settled_string (hquotes : ¬ ['"', '"'] <+: rest) : Settled '"' rest := by
  intro v h
  rw [extent_string hquotes] at h ⊢
  rw [extent_string fun hmarks => hquotes (h.isPrefix (by simp [isBreak]) hmarks),
    stable_stringLength rest v h]

theorem settled_word
    (hextent : ∀ cs, extent c cs =
      ⟨if keywords.contains (String.ofList (c :: cs.take (runLength isIdentPart cs))) then
        .keyword else .ident, runLength isIdentPart cs⟩)
    (rest : List Char) : Settled c rest := by
  intro v h
  rw [hextent] at h ⊢
  rw [hextent, stable_runLength isIdentPart_break rest v h, h.take_append]

/-- Every token is read in the same way when other text follows it. -/
theorem settled (c : Char) (rest : List Char) : Settled c rest := by
  induction c, rest using extent_cases with
  | lineComment more => exact settled_lineComment more
  | blockComment more => exact settled_blockComment more
  | slash rest hline hblock => exact settled_slash hline hblock
  | rawString more => exact settled_rawString more
  | string rest hquotes => exact settled_string hquotes
  | apostrophe rest => exact fun v h => quoted_of_follows h
  | backquote rest => exact (stable_delimitedLength rfl).settled (fun _ => rfl) rest
  | number c rest hextent => exact stable_numberLength.settled hextent rest
  | word c rest hextent => exact settled_word hextent rest
  | operator c rest hextent => exact stable_operatorLength.settled hextent rest
  | punct c rest hextent =>
    have hnone : Stable fun _ => 0 := fun _ _ _ => rfl
    exact hnone.settled hextent rest

theorem extent_of_follows {v : List Char} {e : Extent} (he : extent c rest = e)
    (h : Follows (rest.drop e.length) v) : extent c (rest.take e.length ++ v) = e := by
  subst he
  exact settled c rest v h

end Extent
end SourceGauge.Scala.Lexeme
