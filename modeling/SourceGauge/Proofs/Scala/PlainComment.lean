import SourceGauge.Proofs.Scala.Reading
import SourceGauge.Scala.CodeMetrics
import SourceGauge.Scala.Lexer

/-! Comments that are no doc comments. They can be taken out of a token list without any change to
its code metrics, but for one kind of place: inside the name of an annotation, where a comment ends
the annotation and leaves the rest of it to be read as code. -/
namespace SourceGauge.Scala

/-- A line comment, or a block comment that is no doc comment. -/
def Token.isPlainComment (t : Token) : Bool :=
  t.kind = .comment .line || t.kind = .comment .block

/-- The tokens without the plain comments, each where it was. -/
def withoutPlain (ts : List Token) : List Token := ts.filter (!·.isPlainComment)

namespace Token

variable {t : Token}

theorem isComment_of_isPlainComment (h : t.isPlainComment = true) : t.isComment = true := by
  simp only [isPlainComment, Bool.or_eq_true, decide_eq_true_eq] at h
  rcases h with h | h <;> simp [isComment, h]

theorem isPunct_of_isPlainComment (h : t.isPlainComment = true) (mark : String) :
    t.isPunct mark = false := by
  simp only [isPlainComment, Bool.or_eq_true, decide_eq_true_eq] at h
  rcases h with h | h <;> simp [isPunct, h]

theorem isName_of_isPlainComment (h : t.isPlainComment = true) : Item.isName t = false := by
  simp only [isPlainComment, Bool.or_eq_true, decide_eq_true_eq] at h
  rcases h with h | h <;> simp [Item.isName, h]

end Token

section Filter
variable {t : Token} {ts : List Token}

@[simp] theorem withoutPlain_nil : withoutPlain [] = [] := rfl

theorem withoutPlain_plain (h : t.isPlainComment = true) (ts : List Token) :
    withoutPlain (t :: ts) = withoutPlain ts := List.filter_cons_of_neg (by simp [h])

theorem withoutPlain_other (h : t.isPlainComment = false) (ts : List Token) :
    withoutPlain (t :: ts) = t :: withoutPlain ts := List.filter_cons_of_pos (by simp [h])

theorem withoutPlain_take_append_drop (n : Nat) (ts : List Token) :
    withoutPlain (ts.take n) ++ withoutPlain (ts.drop n) = withoutPlain ts := by
  rw [withoutPlain, withoutPlain, ← List.filter_append, List.take_append_drop, withoutPlain]

/-- What stands in front of a place stays in front of it. -/
theorem take_withoutPlain (n : Nat) (ts : List Token) :
    (withoutPlain ts).take (withoutPlain (ts.take n)).length = withoutPlain (ts.take n) := by
  rw [← withoutPlain_take_append_drop n ts, List.take_left]

theorem drop_withoutPlain (n : Nat) (ts : List Token) :
    (withoutPlain ts).drop (withoutPlain (ts.take n)).length = withoutPlain (ts.drop n) := by
  rw [← withoutPlain_take_append_drop n ts, List.drop_left]

theorem length_withoutPlain_plain (h : t.isPlainComment = true) (ts : List Token) (n : Nat) :
    (withoutPlain ((t :: ts).take (1 + n))).length = (withoutPlain (ts.take n)).length := by
  rw [Nat.add_comm, List.take_succ_cons, withoutPlain_plain h]

theorem length_withoutPlain_other (h : t.isPlainComment = false) (ts : List Token) (n : Nat) :
    (withoutPlain ((t :: ts).take (1 + n))).length = 1 + (withoutPlain (ts.take n)).length := by
  rw [Nat.add_comm, List.take_succ_cons, withoutPlain_other h, List.length_cons, Nat.add_comm]

end Filter

namespace Item

/-- A token that is no mark of a group belongs to the group that is open. -/
theorem groupLength_of_not_mark {opening closing : String} {t : Token}
    (hopening : t.isPunct opening = false) (hclosing : t.isPunct closing = false) (outer : Nat)
    (ts : List Token) :
    groupLength opening closing outer (t :: ts) = 1 + groupLength opening closing outer ts := by
  rw [groupLength.eq_def]
  simp [hopening, hclosing]

/-- A group reaches as far without plain comments as with them. -/
theorem groupLength_withoutPlain (opening closing : String) (outer : Nat) (ts : List Token) :
    groupLength opening closing outer (withoutPlain ts) =
      (withoutPlain (ts.take (groupLength opening closing outer ts))).length := by
  induction ts generalizing outer with
  | nil => rfl
  | cons t ts ih =>
    cases ht : t.isPlainComment with
    | true =>
      have hmark := Token.isPunct_of_isPlainComment ht
      rw [withoutPlain_plain ht, ih, groupLength_of_not_mark (hmark opening) (hmark closing),
        length_withoutPlain_plain ht]
    | false =>
      rw [withoutPlain_other ht, groupLength.eq_def, groupLength.eq_def _ _ _ (t :: ts)]
      dsimp only
      split
      · rw [ih, length_withoutPlain_other ht]
      split
      · cases outer with
        | zero => exact (length_withoutPlain_other ht ts 0).symm
        | succ outer =>
          dsimp only
          rw [ih, length_withoutPlain_other ht]
      · rw [ih, length_withoutPlain_other ht]

theorem qualifierLength_withoutPlain_eq_zero (ts : List Token) :
    qualifierLength (withoutPlain ts) = 0 ↔ qualifierLength ts = 0 := by
  induction ts with
  | nil => rfl
  | cons t ts ih =>
    have hcomment {us : List Token} (h : t.isComment = true) :
        qualifierLength (t :: us) = 0 ↔ qualifierLength us = 0 := by
      rw [qualifierLength_comment h]
      split <;> omega
    cases ht : t.isPlainComment with
    | true => rw [withoutPlain_plain ht, ih, hcomment (Token.isComment_of_isPlainComment ht)]
    | false =>
      rw [withoutPlain_other ht]
      cases h : t.isComment with
      | true => rw [hcomment h, hcomment h, ih]
      | false =>
        rw [qualifierLength_of_not_comment h, qualifierLength_of_not_comment h]
        split
        · omega
        · rfl

/-- A qualifier reaches as far without plain comments as with them. -/
theorem qualifierLength_withoutPlain (ts : List Token) :
    qualifierLength (withoutPlain ts) =
      (withoutPlain (ts.take (qualifierLength ts))).length := by
  induction ts with
  | nil => rfl
  | cons t ts ih =>
    cases ht : t.isPlainComment with
    | true =>
      rw [withoutPlain_plain ht, ih, qualifierLength_comment (Token.isComment_of_isPlainComment ht)]
      split
      case isTrue hnone => rw [hnone]; rfl
      case isFalse => rw [length_withoutPlain_plain ht]
    | false =>
      rw [withoutPlain_other ht]
      cases hcomment : t.isComment with
      | true =>
        rw [qualifierLength_comment hcomment, qualifierLength_comment hcomment]
        simp only [qualifierLength_withoutPlain_eq_zero]
        split
        · rfl
        · rw [ih, length_withoutPlain_other ht]
      | false =>
        rw [qualifierLength_of_not_comment hcomment, qualifierLength_of_not_comment hcomment,
          groupLength_withoutPlain]
        split
        · rw [length_withoutPlain_other ht]
        · rfl

theorem precedesType_withoutPlain (ts : List Token) :
    precedesType (withoutPlain ts) = precedesType ts := by
  have hfind : (withoutPlain ts).find? (!·.isComment) = ts.find? (!·.isComment) := by
    induction ts with
    | nil => rfl
    | cons t ts ih =>
      cases ht : t.isPlainComment with
      | true =>
        rw [withoutPlain_plain ht, ih, List.find?_cons_of_neg]
        simp [Token.isComment_of_isPlainComment ht]
      | false => rw [withoutPlain_other ht, List.find?_cons, List.find?_cons, ih]
  rw [precedesType, hfind, precedesType]

/-- Such a token may be a part of the name of an annotation. -/
def isNamePart (t : Token) : Bool := isName t || t.isPunct "."

/-- Behind some parts of a name stands a plain comment, and `reach` would take in more than those
parts if there were no plain comments after them. -/
def cuts (reach : List Token → Nat) (ts : List Token) : Bool :=
  let front := ts.takeWhile isNamePart
  match ts.dropWhile isNamePart with
  | [] => false
  | t :: rest => t.isPlainComment && front.length < reach (front ++ withoutPlain rest)

/-- A plain comment cuts the name of some annotation of a token list, or cuts it off from the
arguments. -/
def cutsAnnotation : List Token → Bool
  | [] => false
  | t :: rest =>
    t.isPunct "@" && cuts annotationLength rest || cutsAnnotation (rest.drop (read t rest).2)
termination_by ts => ts.length
decreasing_by simp only [List.length_drop, List.length_cons]; omega

theorem cuts_plain {t : Token} (ht : t.isPlainComment = true) (reach : List Token → Nat)
    (rest : List Token) : cuts reach (t :: rest) = decide (0 < reach (withoutPlain rest)) := by
  have hpart : isNamePart t = false := by
    rw [isNamePart, Token.isName_of_isPlainComment ht, Token.isPunct_of_isPlainComment ht]
    rfl
  simp [cuts, hpart, ht]

theorem cuts_part {t : Token} (ht : isNamePart t = true) (reach : List Token → Nat)
    (rest : List Token) : cuts reach (t :: rest) = cuts (fun us => reach (t :: us) - 1) rest := by
  simp only [cuts, List.takeWhile_cons, List.dropWhile_cons, ht, if_true]
  split
  · rfl
  · simp only [List.cons_append, List.length_cons, Nat.lt_sub_iff_add_lt]

/-- After a point an annotation goes on only with a further part of its name. -/
theorem annotationTail_point {point : Token} (hpoint : point.isPunct "." = true) (name : Token)
    (ts : List Token) :
    annotationTail name (point :: ts) =
      if ts.head?.any isName then 2 + annotationTail (ts.headD point) ts.tail else 0 := by
  have hstop (ts : List Token) : argumentsLength name (point :: ts) = 0 :=
    argumentsLength_of_not_opening (by simp [Token.isPunct_of_isPunct hpoint]) name
  cases ts with
  | nil => exact hstop []
  | cons next more =>
    rw [annotationTail, hpoint, hstop]
    simp

theorem argumentsLength_withoutPlain {t : Token} (ht : t.isPlainComment = false) (name : Token)
    (ts : List Token) :
    argumentsLength name (t :: withoutPlain ts) =
      (withoutPlain ((t :: ts).take (argumentsLength name (t :: ts)))).length := by
  rw [argumentsLength, argumentsLength, groupLength_withoutPlain]
  split
  · rw [length_withoutPlain_other ht]
  · rfl

theorem isNamePart_of_point {t : Token} (ht : t.isPunct "." = true) : isNamePart t = true := by
  rw [isNamePart, ht, Bool.or_true]

theorem isPlainComment_of_isNamePart {t : Token} (ht : isNamePart t = true) :
    t.isPlainComment = false := by
  by_contra hplain
  rw [Bool.not_eq_false] at hplain
  rw [isNamePart, Token.isName_of_isPlainComment hplain,
    Token.isPunct_of_isPlainComment hplain] at ht
  cases ht

/-- A point that ends an annotation also ends it without plain comments. -/
theorem annotationTail_withoutPlain_point {point name : Token} {ts : List Token}
    (hpoint : point.isPunct "." = true) (hstop : annotationTail name (point :: ts) = 0)
    (h : cuts (annotationTail name) (point :: ts) = false) :
    annotationTail name (point :: withoutPlain ts) = 0 := by
  rw [cuts_part (isNamePart_of_point hpoint)] at h
  cases ts with
  | nil => exact hstop
  | cons next more =>
    cases hnext : next.isPlainComment with
    | true =>
      rw [cuts_plain hnext, decide_eq_false_iff_not] at h
      rw [withoutPlain_plain hnext]
      rw [annotationTail_point hpoint] at h ⊢
      split
      case isTrue hname =>
        rw [if_pos hname] at h
        omega
      case isFalse => rfl
    | false =>
      rw [annotationTail_point hpoint] at hstop
      rw [withoutPlain_other hnext, annotationTail_point hpoint]
      split at hstop
      case isTrue => omega
      case isFalse hname => exact if_neg hname

/-- Where the name of an annotation ends, and no plain comment cuts it. -/
theorem annotationTail_withoutPlain_of_stop {name : Token} {ts : List Token}
    (hstop : annotationTail name ts = argumentsLength name ts)
    (h : cuts (annotationTail name) ts = false) :
    annotationTail name (withoutPlain ts) =
      (withoutPlain (ts.take (annotationTail name ts))).length := by
  cases ts with
  | nil => rfl
  | cons t rest =>
    have hnone (hopening : t.isPunct "(" = false) : argumentsLength name (t :: rest) = 0 :=
      argumentsLength_of_not_opening (by simpa using hopening) name
    cases ht : t.isPlainComment with
    | true =>
      rw [cuts_plain ht, decide_eq_false_iff_not, Nat.not_lt, Nat.le_zero] at h
      rw [withoutPlain_plain ht, h, hstop, hnone (Token.isPunct_of_isPlainComment ht _)]
      rfl
    | false =>
      rw [withoutPlain_other ht]
      cases hpoint : t.isPunct "." with
      | true =>
        rw [hnone (by simp [Token.isPunct_of_isPunct hpoint])] at hstop
        rw [annotationTail_withoutPlain_point hpoint hstop h, hstop]
        rfl
      | false =>
        rw [hstop, annotationTail_of_not_point (by simpa using hpoint),
          argumentsLength_withoutPlain ht]

/-- If no plain comment cuts it, an annotation reaches as far without plain comments as with
them. -/
theorem annotationTail_withoutPlain {name : Token} {ts : List Token}
    (h : cuts (annotationTail name) ts = false) :
    annotationTail name (withoutPlain ts) =
      (withoutPlain (ts.take (annotationTail name ts))).length := by
  induction name, ts using annotationTail.induct with
  | case1 name point next rest hgo ih =>
    obtain ⟨hpoint, hnext⟩ := Bool.and_eq_true_iff.1 hgo
    have htail (us : List Token) : annotationTail name (point :: next :: us) =
        1 + (1 + annotationTail next us) := by
      rw [annotationTail, if_pos hgo]
      omega
    have hreach : (fun us => annotationTail name (point :: next :: us) - 1 - 1) =
        annotationTail next := by
      funext us
      rw [htail]
      omega
    have hpoint' := isNamePart_of_point hpoint
    have hnext' : isNamePart next = true := by rw [isNamePart, hnext, Bool.true_or]
    have hpointOther := isPlainComment_of_isNamePart hpoint'
    have hnextOther := isPlainComment_of_isNamePart hnext'
    rw [cuts_part hpoint', cuts_part hnext', hreach] at h
    rw [withoutPlain_other hpointOther, withoutPlain_other hnextOther, htail, htail,
      length_withoutPlain_other hpointOther, length_withoutPlain_other hnextOther, ih h]
  | case2 name t next rest hstop =>
    exact annotationTail_withoutPlain_of_stop (by rw [annotationTail, if_neg hstop]) h
  | case3 name ts hshort =>
    exact annotationTail_withoutPlain_of_stop (annotationTail.eq_2 name ts hshort) h

theorem annotationLength_withoutPlain {ts : List Token} (h : cuts annotationLength ts = false) :
    annotationLength (withoutPlain ts) =
      (withoutPlain (ts.take (annotationLength ts))).length := by
  cases ts with
  | nil => rfl
  | cons name rest =>
    cases ht : name.isPlainComment with
    | true =>
      rw [cuts_plain ht, decide_eq_false_iff_not, Nat.not_lt, Nat.le_zero] at h
      rw [withoutPlain_plain ht, h, annotationLength, Token.isName_of_isPlainComment ht]
      rfl
    | false =>
      rw [withoutPlain_other ht, annotationLength, annotationLength]
      split
      case isTrue hname =>
        have hreach : (fun us => annotationLength (name :: us) - 1) = annotationTail name := by
          funext us
          rw [annotationLength, if_pos hname]
          omega
        rw [cuts_part (by rw [isNamePart, hname, Bool.true_or]), hreach] at h
        rw [length_withoutPlain_other ht, annotationTail_withoutPlain h]
      case isFalse => rfl

/-- The item without its plain comments. -/
def withoutPlain : Item → Item
  | .annot span => .annot (Scala.withoutPlain span)
  | .modifier word qualifier => .modifier word (Scala.withoutPlain qualifier)
  | item => item

theorem read_withoutPlain {t : Token} (ht : t.isPlainComment = false) {rest : List Token}
    (h : (t.isPunct "@" && cuts annotationLength rest) = false) :
    read t (Scala.withoutPlain rest) =
      ((read t rest).1.withoutPlain,
        (Scala.withoutPlain (rest.take (read t rest).2)).length) := by
  unfold read
  split
  · rfl
  split
  case isTrue hat =>
    rw [hat, Bool.true_and] at h
    simp only [annotationLength_withoutPlain h, take_withoutPlain, withoutPlain,
      withoutPlain_other ht]
  split
  case isTrue =>
    dsimp only
    split
    · simp only [qualifierLength_withoutPlain, take_withoutPlain, withoutPlain]
    · rfl
  rw [precedesType_withoutPlain]
  split <;> rfl

end Item

namespace Scan

theorem step_withoutPlain (s : Scan) (item : Item) : s.step item.withoutPlain = s.step item := by
  cases item <;> rfl

theorem step_plain (s : Scan) {t : Token} (ht : t.isPlainComment = true) :
    s.step (.comment t) = s := by
  have hdoc : t.kind ≠ .comment .doc := by
    intro hkind
    simp [Token.isPlainComment, hkind] at ht
  exact if_neg hdoc

/-- A scan goes on through the items without plain comments as through those with them. -/
theorem foldl_step_withoutPlain {ts : List Token} (h : Item.cutsAnnotation ts = false) (s : Scan) :
    (Item.ofTokens (withoutPlain ts)).foldl step s = (Item.ofTokens ts).foldl step s := by
  induction ts using Item.ofTokens.induct generalizing s with
  | case1 => rfl
  | case2 t rest ih =>
    rw [Item.cutsAnnotation, Bool.or_eq_false_iff] at h
    rw [Item.ofTokens, List.foldl_cons, ← ih h.2]
    cases ht : t.isPlainComment with
    | true =>
      rw [Item.read_comment (Token.isComment_of_isPlainComment ht), withoutPlain_plain ht,
        step_plain s ht]
      rfl
    | false =>
      rw [withoutPlain_other ht, Item.ofTokens, Item.read_withoutPlain ht h.1, List.foldl_cons,
        step_withoutPlain, drop_withoutPlain]

end Scan

/-- Plain comments do not change the code metrics of a token list, wherever they stand, unless one
of them cuts an annotation. -/
theorem codeMetrics_withoutPlain {ts : List Token} (h : Item.cutsAnnotation ts = false) :
    CodeMetrics.ofTokens (withoutPlain ts) = CodeMetrics.ofTokens ts := by
  rw [CodeMetrics.ofTokens, Scan.run, Scan.foldl_step_withoutPlain h]
  rfl

/-- Comments before a qualifier, in it, after `case`, in the arguments of an annotation and after
them. -/
theorem codeMetrics_withoutPlain_between :
    let tokens := tokenize
      "@a.b(1 /* x */) /* y */ private /* z */ [p] case // w\nclass C { /** d */ def f = 1 }".toList
    Item.cutsAnnotation tokens = false ∧ (withoutPlain tokens).length + 4 = tokens.length ∧
      CodeMetrics.ofTokens (withoutPlain tokens) = CodeMetrics.ofTokens tokens := by
  intro tokens
  have hcuts : Item.cutsAnnotation tokens = false := by decide +kernel
  exact ⟨hcuts, by decide +kernel, codeMetrics_withoutPlain hcuts⟩

/-- A comment between the at sign and the name of an annotation makes a statement of the name, and
takes the doc comment away from the declaration. -/
theorem codeMetrics_ne_withoutPlain_cut :
    let tokens := tokenize "/** doc */ @/* why */inline def f = 1".toList
    CodeMetrics.ofTokens (withoutPlain tokens) ≠ CodeMetrics.ofTokens tokens ∧
      CodeMetrics.ofTokens (withoutPlain tokens) = ⟨0, 0, 1, 1, [1], 1, 0⟩ ∧
      CodeMetrics.ofTokens tokens = ⟨0, 1, 1, 1, [1], 1, 1⟩ := by
  decide +kernel

end SourceGauge.Scala
