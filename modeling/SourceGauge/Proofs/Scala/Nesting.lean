import Mathlib.Data.List.Induction
import SourceGauge.Scala.Item

/-! Delimiters and the groups that they enclose. A well-nested stretch of tokens leaves the groups
around it as they are, whether one counts the delimiters of one kind or keeps all open groups. -/
namespace SourceGauge.Scala

/-- The marks that open a group, each with the mark that closes it. -/
def delimiters : List (String × String) := [("(", ")"), ("[", "]"), ("\x7b", "\x7d")]

/-- No mark both opens and closes, and each belongs to one kind of group. -/
theorem delimiters_apart : ∀ d ∈ delimiters, ∀ e ∈ delimiters,
    d.1 ≠ e.2 ∧ (d.1 = e.1 ↔ d.2 = e.2) := by decide

namespace Token

def isOpening (t : Token) : Bool := delimiters.any fun d => t.isPunct d.1

def isClosing (t : Token) : Bool := delimiters.any fun d => t.isPunct d.2

theorem isPunct_iff {t : Token} {mark : String} :
    t.isPunct mark = true ↔ t.kind = .punct ∧ t.text = mark := by
  simp [isPunct]

theorem isKeyword_iff {t : Token} {word : String} :
    t.isKeyword word = true ↔ t.kind = .keyword ∧ t.text = word := by
  simp [isKeyword]

theorem isPunct_of_isPunct {t : Token} {mark : String} (h : t.isPunct mark = true)
    (other : String) : t.isPunct other = decide (mark = other) := by
  obtain ⟨hkind, rfl⟩ := isPunct_iff.1 h
  simp [isPunct, hkind]

theorem isPunct_of_not_isOpening {t : Token} (h : t.isOpening = false) {d : String × String}
    (hd : d ∈ delimiters) : t.isPunct d.1 = false := by
  simpa using List.any_eq_false.1 h d hd

theorem isPunct_of_not_isClosing {t : Token} (h : t.isClosing = false) {d : String × String}
    (hd : d ∈ delimiters) : t.isPunct d.2 = false := by
  simpa using List.any_eq_false.1 h d hd

theorem isOpening_of_isPunct {t : Token} {d : String × String} (hd : d ∈ delimiters)
    (h : t.isPunct d.1 = true) : t.isOpening = true ∧ t.isClosing = false := by
  refine ⟨List.any_eq_true.2 ⟨d, hd, h⟩, ?_⟩
  simp only [isClosing, isPunct_of_isPunct h, List.any_eq_false, decide_eq_true_eq]
  exact fun e he => (delimiters_apart d hd e he).1

theorem isClosing_of_isPunct {t : Token} {d : String × String} (hd : d ∈ delimiters)
    (h : t.isPunct d.2 = true) : t.isClosing = true ∧ t.isOpening = false := by
  refine ⟨List.any_eq_true.2 ⟨d, hd, h⟩, ?_⟩
  simp only [isOpening, isPunct_of_isPunct h, List.any_eq_false, decide_eq_true_eq]
  exact fun e he => (delimiters_apart e he d hd).1.symm

theorem not_delimiter {t : Token}
    (h : ∀ d ∈ delimiters, t.isPunct d.1 = false ∧ t.isPunct d.2 = false) :
    t.isOpening = false ∧ t.isClosing = false := by
  simp only [isOpening, isClosing, List.any_eq_false, Bool.not_eq_true]
  exact ⟨fun d hd => (h d hd).1, fun d hd => (h d hd).2⟩

theorem not_delimiter_of_kind {t : Token} (h : t.kind ≠ .punct) :
    t.isOpening = false ∧ t.isClosing = false :=
  not_delimiter fun _ _ => by simp [isPunct, h]

theorem not_delimiter_of_isComment {t : Token} (ht : t.isComment = true) :
    t.isOpening = false ∧ t.isClosing = false := by
  apply not_delimiter_of_kind
  intro hkind
  simp [isComment, hkind] at ht

theorem not_delimiter_of_isName {t : Token} (ht : Item.isName t = true) :
    t.isOpening = false ∧ t.isClosing = false := by
  apply not_delimiter_of_kind
  intro hkind
  simp [Item.isName, hkind] at ht

theorem not_delimiter_of_isPunct {t : Token} {mark : String} (ht : t.isPunct mark = true)
    (h : ∀ d ∈ delimiters, mark ≠ d.1 ∧ mark ≠ d.2) : t.isOpening = false ∧ t.isClosing = false :=
  not_delimiter fun d hd => by simp [isPunct_of_isPunct ht, h d hd]

end Token

/-- Every group is closed by the mark that belongs to its opening mark. -/
inductive WellNested : List Token → Prop
  | nil : WellNested []
  | token {t : Token} {rest : List Token} (hopening : t.isOpening = false)
      (hclosing : t.isClosing = false) (hrest : WellNested rest) : WellNested (t :: rest)
  | group {opening closing : Token} {d : String × String} {inner rest : List Token}
      (hd : d ∈ delimiters) (hopening : opening.isPunct d.1 = true)
      (hclosing : closing.isPunct d.2 = true) (hinner : WellNested inner)
      (hrest : WellNested rest) : WellNested (opening :: (inner ++ closing :: rest))

namespace WellNested

theorem cons {t : Token} {rest : List Token} (ht : t.isOpening = false ∧ t.isClosing = false)
    (hrest : WellNested rest) : WellNested (t :: rest) := .token ht.1 ht.2 hrest

theorem append {xs ys : List Token} (hxs : WellNested xs) (hys : WellNested ys) :
    WellNested (xs ++ ys) := by
  induction hxs with
  | nil => exact hys
  | token hopening hclosing _ ih => exact .token hopening hclosing ih
  | group hd hopening hclosing hinner _ _ ih =>
    rw [List.cons_append, List.append_assoc, List.cons_append]
    exact .group hd hopening hclosing hinner ih

theorem flatMap {α : Type} {f : α → List Token} {xs : List α} (h : ∀ x ∈ xs, WellNested (f x)) :
    WellNested (xs.flatMap f) := by
  induction xs with
  | nil => exact .nil
  | cons x xs ih =>
    rw [List.flatMap_cons]
    exact (h x List.mem_cons_self).append (ih fun y hy => h y (List.mem_cons_of_mem x hy))

end WellNested

/-- A pair of delimiters with the tokens between them. -/
structure Group where
  opening : Token
  inner : List Token
  closing : Token
  deriving DecidableEq, Repr

namespace Group

def tokens (g : Group) : List Token := g.opening :: (g.inner ++ [g.closing])

/-- The tokens of a group that may be left out. -/
def tokensOf (group : Option Group) : List Token := group.elim [] tokens

@[simp] theorem tokensOf_none : tokensOf none = [] := rfl

@[simp] theorem tokensOf_some (g : Group) : tokensOf (some g) = g.tokens := rfl

/-- A well-nested group with delimiters of one kind. -/
structure IsOf (d : String × String) (g : Group) : Prop where
  opening : g.opening.isPunct d.1 = true
  inner : WellNested g.inner
  closing : g.closing.isPunct d.2 = true

variable {d : String × String} {g : Group}

theorem IsOf.wellNested (h : g.IsOf d) (hd : d ∈ delimiters) : WellNested g.tokens :=
  .group hd h.opening h.closing h.inner .nil

end Group

/-- Counting the groups of one kind, a well-nested stretch ends none of those around it. -/
theorem Item.groupLength_append {d : String × String} (hd : d ∈ delimiters) {inner : List Token}
    (h : WellNested inner) (outer : Nat) (rest : List Token) :
    groupLength d.1 d.2 outer (inner ++ rest) = inner.length + groupLength d.1 d.2 outer rest := by
  induction h generalizing outer rest with
  | nil => simp
  | token hopening hclosing _ ih =>
    simp only [List.cons_append, groupLength, Token.isPunct_of_not_isOpening hopening hd,
      Token.isPunct_of_not_isClosing hclosing hd, ih, Bool.false_eq_true, if_false,
      List.length_cons]
    omega
  | @group o c e inner ts he hopening hclosing _ _ ihinner ihrest =>
    have hsplit : o :: (inner ++ c :: ts) ++ rest = o :: (inner ++ c :: (ts ++ rest)) := by simp
    obtain ⟨hapart, hsame⟩ := delimiters_apart e he d hd
    have hapart' := (delimiters_apart d hd e he).1.symm
    simp only [hsplit, groupLength, Token.isPunct_of_isPunct hopening,
      Token.isPunct_of_isPunct hclosing, hapart, hapart', ihinner, hsame, decide_eq_true_eq,
      decide_false, Bool.false_eq_true, if_false, List.length_cons, List.length_append, ihrest]
    split
    · omega
    · omega

/-- Counting the groups of one kind, one ends before the rest, or the rest goes on inside some. -/
theorem Item.groupLength_append_cases (opening closing : String) (outer : Nat)
    (front rest : List Token) :
    groupLength opening closing outer (front ++ rest) ≤ front.length ∨
      ∃ inside, groupLength opening closing outer (front ++ rest) =
        front.length + groupLength opening closing inside rest := by
  induction front generalizing outer with
  | nil => exact .inr ⟨outer, (Nat.zero_add _).symm⟩
  | cons t front ih =>
    have hstep (count : Nat) :
        1 + groupLength opening closing count (front ++ rest) ≤ (t :: front).length ∨
          ∃ inside, 1 + groupLength opening closing count (front ++ rest) =
            (t :: front).length + groupLength opening closing inside rest := by
      rw [List.length_cons]
      rcases ih count with hle | ⟨inside, heq⟩
      · left
        omega
      · exact .inr ⟨inside, by omega⟩
    rw [List.cons_append, groupLength.eq_def]
    dsimp only
    split
    · exact hstep (outer + 1)
    split
    · cases outer with
      | zero =>
        left
        simp
      | succ outer => exact hstep outer
    · exact hstep outer

theorem Item.one_le_groupLength (opening closing : String) (outer : Nat) (t : Token)
    (rest : List Token) : 1 ≤ groupLength opening closing outer (t :: rest) := by
  rw [groupLength.eq_def]
  dsimp only
  split
  · omega
  split
  · split <;> omega
  · omega

theorem Item.groupLength_of_closing {d : String × String} (hd : d ∈ delimiters) {closing : Token}
    (h : closing.isPunct d.2 = true) (rest : List Token) :
    groupLength d.1 d.2 0 (closing :: rest) = 1 := by
  have hopening : closing.isPunct d.1 = false :=
    Token.isPunct_of_not_isOpening (Token.isClosing_of_isPunct hd h).2 hd
  rw [groupLength, hopening, h]
  rfl

/-- Every group that opens among the tokens ends there as well. -/
def Matched (ts : List Token) : Prop :=
  ∀ d ∈ delimiters, ∀ outside opening inside, ts = outside ++ opening :: inside →
    opening.isPunct d.1 = true → ∃ inner closing rest,
      inside = inner ++ closing :: rest ∧ WellNested inner ∧ closing.isPunct d.2 = true

theorem Matched.of_append {front ts : List Token} (h : Matched (front ++ ts)) : Matched ts :=
  fun d hd outside opening inside hts =>
    h d hd (front ++ outside) opening inside (by rw [hts, List.append_assoc])

theorem WellNested.matched {ts : List Token} (h : WellNested ts) : Matched ts := by
  intro d hd outside opening inside hts hopens
  induction h generalizing outside inside with
  | nil => simp at hts
  | @token t ts hopening _ _ ih =>
    rcases outside with _ | ⟨x, outside⟩
    · obtain ⟨rfl, rfl⟩ := List.cons.inj hts
      rw [Token.isPunct_of_not_isOpening hopening hd] at hopens
      cases hopens
    · exact ih outside inside (List.cons.inj hts).2
  | @group o c e inner ts he hopening hclosing hinner _ ihinner ihrest =>
    rcases outside with _ | ⟨x, outside⟩
    · obtain ⟨rfl, rfl⟩ := List.cons.inj hts
      have hsame : e.1 = d.1 := by
        rw [Token.isPunct_of_isPunct hopening] at hopens
        exact of_decide_eq_true hopens
      rw [(delimiters_apart e he d hd).2.1 hsame] at hclosing
      exact ⟨inner, c, ts, rfl, hinner, hclosing⟩
    · have hne : opening ≠ c := by
        rintro rfl
        rw [Token.isPunct_of_not_isOpening (Token.isClosing_of_isPunct he hclosing).2 hd] at hopens
        cases hopens
      rcases List.append_eq_append_iff.1 (List.cons.inj hts).2 with
        ⟨outside', -, hrest⟩ | ⟨inside', houtside, hrest⟩
      · rcases outside' with _ | ⟨y, outside'⟩
        · exact absurd (List.cons.inj hrest).1.symm hne
        · exact ihrest outside' inside (List.cons.inj hrest).2
      · rcases inside' with _ | ⟨y, inside'⟩
        · exact absurd (List.cons.inj hrest).1 hne
        · rw [List.cons_append] at hrest
          obtain ⟨rfl, rfl⟩ := List.cons.inj hrest
          obtain ⟨inner', closing, rest, rfl, hinner', hcloses⟩ := ihinner outside inside' houtside
          exact ⟨inner', closing, rest ++ c :: ts, by simp, hinner', hcloses⟩

/-- A group that opens inside a well-nested stretch also ends there. -/
theorem Item.groupLength_le {ts : List Token} (h : WellNested ts) {d : String × String}
    (hd : d ∈ delimiters) {front inside : List Token} {t : Token}
    (hts : ts = front ++ t :: inside) (ht : t.isPunct d.1 = true) (rest : List Token) :
    groupLength d.1 d.2 0 (inside ++ rest) ≤ inside.length := by
  obtain ⟨inner, closing, more, rfl, hinner, hcloses⟩ := h.matched d hd front t inside hts ht
  rw [List.append_assoc, groupLength_append hd hinner, List.cons_append,
    groupLength_of_closing hd hcloses]
  simp

/-- A group that is not closed yet, with the tokens before it. -/
structure OpenGroup where
  before : List Token
  opening : Token
  deriving DecidableEq, Repr

/-- The open groups after some tokens, if `groups` are open after the tokens `before` them. -/
def openGroupsFrom (before : List Token) (groups : List OpenGroup) : List Token → List OpenGroup
  | [] => groups
  | t :: rest =>
    openGroupsFrom (before ++ [t])
      (if t.isOpening then ⟨before, t⟩ :: groups
        else if t.isClosing then groups.tail
        else groups) rest

/-- The groups that are open after some tokens, innermost first. A closing mark closes the innermost
group. -/
def openGroups (tokens : List Token) : List OpenGroup := openGroupsFrom [] [] tokens

theorem openGroupsFrom_append (before : List Token) (groups : List OpenGroup) (xs ys : List Token) :
    openGroupsFrom before groups (xs ++ ys) =
      openGroupsFrom (before ++ xs) (openGroupsFrom before groups xs) ys := by
  induction xs generalizing before groups with
  | nil => simp [openGroupsFrom]
  | cons t xs ih => simp [openGroupsFrom, ih]

theorem openGroups_concat (tokens : List Token) (t : Token) :
    openGroups (tokens ++ [t]) =
      if t.isOpening then ⟨tokens, t⟩ :: openGroups tokens
      else if t.isClosing then (openGroups tokens).tail
      else openGroups tokens := openGroupsFrom_append [] [] tokens [t]

/-- A well-nested stretch leaves the same groups open. -/
theorem openGroups_append {inner : List Token} (h : WellNested inner) (tokens : List Token) :
    openGroups (tokens ++ inner) = openGroups tokens := by
  induction h generalizing tokens with
  | nil => rw [List.append_nil]
  | token hopening hclosing _ ih =>
    rw [List.append_cons, ih, openGroups_concat, hopening, hclosing]
    rfl
  | group hd hopening hclosing _ _ ihinner ihrest =>
    have ho := (Token.isOpening_of_isPunct hd hopening).1
    have hc := Token.isClosing_of_isPunct hd hclosing
    rw [List.append_cons, ← List.append_assoc, List.append_cons, ihrest, openGroups_concat, hc.1,
      hc.2, ihinner, openGroups_concat, ho]
    rfl

/-- A group that is open begins where its opening mark stands. -/
theorem eq_append_of_mem_openGroups {tokens : List Token} {g : OpenGroup}
    (h : g ∈ openGroups tokens) : ∃ rest, tokens = g.before ++ g.opening :: rest := by
  induction tokens using List.reverseRecOn with
  | nil => cases h
  | append_singleton tokens t ih =>
    have hearlier (hg : g ∈ openGroups tokens) :
        ∃ rest, tokens ++ [t] = g.before ++ g.opening :: rest := by
      obtain ⟨rest, hrest⟩ := ih hg
      exact ⟨rest ++ [t], by rw [hrest]; simp⟩
    rw [openGroups_concat] at h
    split at h
    · rcases List.mem_cons.1 h with rfl | hg
      · exact ⟨[], rfl⟩
      · exact hearlier hg
    split at h
    · exact hearlier (List.mem_of_mem_tail h)
    · exact hearlier h

end SourceGauge.Scala
