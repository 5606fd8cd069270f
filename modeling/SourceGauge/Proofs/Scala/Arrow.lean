import Mathlib
import SourceGauge.Proofs.Scala.Clause
import SourceGauge.Proofs.Scala.OpenGroup
import SourceGauge.Scala.Lexer

/-! Which arrows end a case pattern. The scan keeps one clause in mind, the latest, and knows its
group by the depth alone. That is the clause of an arrow unless a later one stands in another
group. -/
namespace SourceGauge.Scala

structure Token.IsArrow (t : Token) : Prop where
  kind : t.kind = .operator
  text : t.text = "=>"

/-- The groups that are open where the items end. -/
def groupsAfter (items : List Item) : List OpenGroup := openGroups (items.flatMap Item.tokens)

/-- The group directly around what follows the items. -/
def innermost (items : List Item) : Option OpenGroup := (groupsAfter items).head?

/-- No arrow stands among the items `mid` at a place that fits `p`, with the items `front` before
them. -/
def NoArrow (p : List Item → Prop) (front mid : List Item) : Prop :=
  ∀ inner t rest, mid = inner ++ Item.code t :: rest → t.IsArrow → ¬ p (front ++ inner)

/-- An arrow that follows is the first one that stands directly in the group of an earlier clause,
behind the word of the clause. -/
def IsClauseArrow (before : List Item) : Prop :=
  ∃ front word mid, before = front ++ Item.code word :: mid ∧ word.isKeyword "case" = true ∧
    innermost front = innermost before ∧
    NoArrow (innermost · = innermost before) (front ++ [Item.code word]) mid

/-- The scan takes the arrow for the end of a pattern: the next code token stands where a statement
may begin, on whatever line that is. -/
def OpensBody (before : List Item) (arrow : Token) : Prop :=
  ∀ skipped next, codeTokens skipped = [] →
    (Scan.after (before ++ Item.code arrow :: skipped)).atBoundary next = true

/-- The latest clause among some items. -/
structure LastClause (items front : List Item) (word : Token) (mid : List Item) : Prop where
  split : items = front ++ Item.code word :: mid
  word : word.isKeyword "case" = true
  last : ∀ item ∈ mid, item.isClause = false

section Split
variable {items before front mid : List Item} {word : Token}

/-- An earlier clause stands before the latest one. -/
theorem LastClause.covers (h : LastClause items front word mid) {front' mid' : List Item}
    {word' : Token} (hsplit : items = front' ++ Item.code word' :: mid')
    (hword : word'.isKeyword "case" = true) :
    ∃ more, front ++ [Item.code word] = front' ++ Item.code word' :: more ∧ mid' = more ++ mid := by
  have hitems : (front ++ [Item.code word]) ++ mid = (front' ++ [Item.code word']) ++ mid' := by
    rw [List.append_assoc, List.append_assoc]
    exact h.split.symm.trans hsplit
  rcases List.append_eq_append_iff.1 hitems with ⟨more, hfront, hmid⟩ | ⟨more, hfront, hmid⟩
  · rcases List.eq_nil_or_concat more with rfl | ⟨more, last, rfl⟩
    · exact ⟨[], by simpa using hfront.symm, hmid.symm⟩
    · rw [List.concat_eq_append, ← List.append_assoc] at hfront
      obtain ⟨-, hlast⟩ := List.append_inj' hfront rfl
      obtain rfl : Item.code word' = last := List.singleton_inj.1 hlast
      have hclause : (Item.code word').isClause = false := h.last _ (by simp [hmid])
      exact absurd hword (Bool.eq_false_iff.1 hclause)
  · exact ⟨more, by simpa using hfront, hmid⟩

theorem LastClause.unique (h : LastClause items front word mid) {front' mid' : List Item}
    {word' : Token} (h' : LastClause items front' word' mid') : front = front' ∧ mid = mid' := by
  obtain ⟨more, hfront, rfl⟩ := h.covers h'.split h'.word
  rcases concat_eq_split.1 hfront with ⟨rfl, -, rfl⟩ | ⟨more, rfl, -⟩
  · exact ⟨rfl, rfl⟩
  · have hclause : (Item.code word).isClause = false := h'.last _ (by simp)
    exact absurd h.word (Bool.eq_false_iff.1 hclause)

theorem noArrow_nil {p : List Item → Prop} : NoArrow p front [] := by
  intro inner t rest hmid
  simp at hmid

theorem noArrow_concat {p : List Item → Prop} {item : Item} :
    NoArrow p front (mid ++ [item]) ↔
      NoArrow p front mid ∧ ∀ t, item = Item.code t → t.IsArrow → ¬ p (front ++ mid) := by
  constructor
  · intro h
    refine ⟨fun inner t rest hmid => ?_, fun t hitem => ?_⟩
    · exact h inner t (rest ++ [item]) (by simp [hmid])
    · exact h mid t [] (by rw [hitem])
  · rintro ⟨hmid, hlast⟩ inner t rest hsplit
    rcases concat_eq_split.1 hsplit with ⟨rfl, hitem, -⟩ | ⟨rest, -, hinner⟩
    · exact hlast t hitem
    · exact hmid inner t rest hinner

instance (t : Token) : Decidable t.IsArrow :=
  decidable_of_iff (t.kind = .operator ∧ t.text = "=>")
    ⟨fun h => ⟨h.1, h.2⟩, fun h => ⟨h.kind, h.text⟩⟩

theorem noArrow_iff {p : List Item → Prop} :
    NoArrow p front mid ↔ ∀ i < mid.length, ∀ t ∈ codeTokens mid[i]?.toList,
      t.IsArrow → ¬ p (front ++ mid.take i) := by
  constructor
  · intro h i hi t ht
    have hitem : mid[i] = Item.code t := by
      obtain ⟨item, hmem, hcode⟩ := List.mem_filterMap.1 ht
      obtain rfl : item = mid[i] := by simpa [List.getElem?_eq_getElem hi] using hmem
      cases hkind : mid[i] <;> simp_all
    apply h (mid.take i) t (mid.drop (i + 1))
    rw [← hitem, List.getElem_cons_drop, List.take_append_drop]
  · rintro h inner t rest rfl
    have hplace := h inner.length (by simp) t (by simp [codeTokens])
    rwa [List.take_left] at hplace

instance {p : List Item → Prop} [DecidablePred p] (front mid : List Item) :
    Decidable (NoArrow p front mid) := decidable_of_iff _ noArrow_iff.symm

/-- A further item is the latest clause itself, or it stands behind the latest clause. -/
theorem exists_lastClause_concat {p q : List Item → Prop} {item : Item} :
    (∃ front word mid, LastClause (items ++ [item]) front word mid ∧ q front ∧
        NoArrow p (front ++ [Item.code word]) mid) ↔
      item.isClause = true ∧ q items ∨
        item.isClause = false ∧
          (∃ front word mid, LastClause items front word mid ∧ q front ∧
            NoArrow p (front ++ [Item.code word]) mid) ∧
          ∀ t, item = .code t → t.IsArrow → ¬ p items := by
  constructor
  · rintro ⟨front, word, mid, h, hfront, hnone⟩
    rcases concat_eq_split.1 h.split with ⟨rfl, rfl, -⟩ | ⟨mid, rfl, rfl⟩
    · exact .inl ⟨h.word, hfront⟩
    · obtain ⟨hnone, hitem⟩ := noArrow_concat.1 hnone
      have hlast := List.forall_mem_append.1 h.last
      refine .inr ⟨hlast.2 item (List.mem_singleton_self _), ?_, by simpa using hitem⟩
      exact ⟨front, word, mid, ⟨rfl, h.word, hlast.1⟩, hfront, hnone⟩
  · rintro (⟨hclause, hitems⟩ | ⟨hclause, ⟨front, word, mid, h, hfront, hnone⟩, hitem⟩)
    · cases item with
      | code word => exact ⟨items, word, [], ⟨rfl, hclause, nofun⟩, hitems, noArrow_nil⟩
      | _ => cases hclause
    · refine ⟨front, word, mid ++ [item], ⟨?_, h.word, ?_⟩, hfront, ?_⟩
      · rw [h.split, List.append_assoc, List.cons_append]
      · exact List.forall_mem_append.2 ⟨h.last, by simpa using hclause⟩
      · refine noArrow_concat.2 ⟨hnone, ?_⟩
        rw [h.split] at hitem
        simpa using hitem

end Split

namespace Scan

/-- What is no code leaves the last token, and whether it ended a pattern. -/
theorem previous_foldl_of_codeTokens {skipped : List Item} (h : codeTokens skipped = [])
    (s : Scan) : (skipped.foldl step s).previous = s.previous ∧
      (skipped.foldl step s).afterCaseArrow = s.afterCaseArrow := by
  induction skipped generalizing s with
  | nil => exact ⟨rfl, rfl⟩
  | cons item skipped ih =>
    rw [← List.singleton_append, codeTokens_append, List.append_eq_nil_iff] at h
    obtain ⟨hidden, documented, hstep⟩ := s.exists_step_eq h.1
    rw [List.foldl_cons, hstep]
    exact ih h.2 _

theorem endsPattern_arrow {arrow : Token} (h : arrow.IsArrow) (s : Scan) :
    s.endsPattern arrow = true ↔ s.patternDepth = some s.depth := by
  simp [endsPattern, h.kind, h.text]

/-- The depth that is kept in mind is that of the latest clause, as long as no arrow stood at this
depth after it. -/
theorem patternDepth_after_iff {items : List Item} {d : Nat} :
    (after items).patternDepth = some d ↔
      ∃ front word mid, LastClause items front word mid ∧ (after front).depth = d ∧
        NoArrow (fun place => (after place).depth = d) (front ++ [Item.code word]) mid := by
  induction items using List.reverseRecOn with
  | nil =>
    refine ⟨nofun, ?_⟩
    rintro ⟨front, word, mid, h, -⟩
    have hsplit := h.split
    simp at hsplit
  | append_singleton items item ih =>
    have hafter : after (items ++ [item]) = (after items).step item := List.foldl_concat ..
    rw [hafter, exists_lastClause_concat, ← ih]
    rcases item.eq_code_or_codeTokens_eq_nil with ⟨t, rfl⟩ | hitem
    · have hclause : (Item.code t).isClause = t.isKeyword "case" := rfl
      rw [step, patternDepth_code, hclause]
      cases hword : t.isKeyword "case" with
      | true => simp
      | false =>
        simp only [Bool.false_eq_true, if_false, false_and, false_or, true_and, Item.code.injEq,
          forall_eq']
        by_cases harrow : t.IsArrow
        · have hends := endsPattern_arrow harrow (after items)
          by_cases hpattern : (after items).patternDepth = some (after items).depth
          · rw [if_pos (hends.2 hpattern), hpattern]
            simp [harrow]
          · rw [if_neg (mt hends.1 hpattern)]
            exact ⟨fun h => ⟨h, fun _ hdepth => hpattern (by rw [h, hdepth])⟩, (·.1)⟩
        · have hends : (after items).endsPattern t = false := by
            by_contra h
            simp only [endsPattern, Bool.not_eq_false, Bool.and_eq_true, decide_eq_true_eq] at h
            exact harrow ⟨h.1.1, h.1.2⟩
          simp [hends, harrow]
    · have hnone (t : Token) : item ≠ Item.code t := by
        rintro rfl
        cases hitem
      have hclause : item.isClause = false := by
        cases item with
        | code t => cases hitem
        | _ => rfl
      obtain ⟨hidden, documented, hstep⟩ := (after items).exists_step_eq hitem
      simp [hstep, hclause, hnone]

end Scan

/-- The arrow of the clause that is kept in mind. -/
theorem opensBody_iff {arrow : Token} (harrow : arrow.IsArrow) (before : List Item) :
    OpensBody before arrow ↔
      (Scan.after before).patternDepth = some (Scan.after before).depth := by
  have hnext (skipped : List Item) (hskipped : codeTokens skipped = []) (next : Token) :
      (Scan.after (before ++ Item.code arrow :: skipped)).atBoundary next =
        ((Scan.after before).endsPattern arrow || arrow.stop.line < next.start.line) := by
    have hafter : Scan.after (before ++ Item.code arrow :: skipped) =
        skipped.foldl Scan.step ((Scan.after before).code arrow) := by
      rw [Scan.after, List.foldl_append]
      rfl
    obtain ⟨hprevious, hends⟩ := Scan.previous_foldl_of_codeTokens hskipped
      ((Scan.after before).code arrow)
    have hlast : ((Scan.after before).code arrow).previous = some arrow := rfl
    rw [hafter, Scan.atBoundary, hprevious, hlast, hends, Scan.afterCaseArrow_code]
    simp [Token.isPunct, Scan.isContinuation, harrow.kind, harrow.text]
  rw [← Scan.endsPattern_arrow harrow]
  constructor
  · intro h
    have hhere := h [] { arrow with start := arrow.stop } rfl
    rw [hnext [] rfl] at hhere
    simpa using hhere
  · intro hends skipped next hskipped
    rw [hnext skipped hskipped, hends, Bool.true_or]

section Groups
variable {before front mid : List Item} {word arrow : Token}

theorem groupsAfter_eq_of_innermost {xs ys : List Item} (h : innermost xs = innermost ys) :
    groupsAfter xs = groupsAfter ys := openGroups_eq_of_head? h

/-- Between two places in the same group, a place at the same depth lies in this group as well. -/
theorem innermost_between {mid : List Item} (items : List Item)
    (h : innermost front = innermost before) (hsplit : before = front ++ mid ++ items)
    (hlength : (groupsAfter (front ++ mid)).length = (groupsAfter before).length) :
    innermost (front ++ mid) = innermost before := by
  have hends := groupsAfter_eq_of_innermost h
  rw [← hends] at hlength
  simp only [hsplit, groupsAfter, List.append_assoc, List.flatMap_append] at hends hlength
  have hsame := openGroups_between hends.symm hlength
  rw [← h, innermost, innermost, groupsAfter, groupsAfter, List.flatMap_append, hsame]

/-- What the scan takes an arrow for depends on the latest clause alone, and on depths. -/
theorem LastClause.opensBody_iff (h : LastClause before front word mid)
    (hwhole : SkipsWhole before) (harrow : arrow.IsArrow) :
    OpensBody before arrow ↔ (groupsAfter front).length = (groupsAfter before).length ∧
      NoArrow (fun place => (groupsAfter place).length = (groupsAfter before).length)
        (front ++ [Item.code word]) mid := by
  have hdepth {place rest : List Item} (hplace : before = place ++ rest) :
      (Scan.after place).depth = (groupsAfter place).length :=
    Scan.depth_after fun item hitem => hwhole item (hplace ▸ List.mem_append_left _ hitem)
  have hbefore := hdepth (List.append_nil before).symm
  have hfront := hdepth h.split
  have hmid : NoArrow (fun place => (Scan.after place).depth = (groupsAfter before).length)
        (front ++ [Item.code word]) mid ↔
      NoArrow (fun place => (groupsAfter place).length = (groupsAfter before).length)
        (front ++ [Item.code word]) mid := by
    refine forall₄_congr fun inner t rest hsplit => ?_
    have hplace : before = front ++ [Item.code word] ++ inner ++ Item.code t :: rest := by
      rw [h.split, hsplit]
      simp
    simp only [hdepth hplace]
  rw [Scala.opensBody_iff harrow, Scan.patternDepth_after_iff, hbefore]
  constructor
  · rintro ⟨front', word', mid', h', hlength, hnone⟩
    obtain ⟨rfl, rfl⟩ := h.unique h'
    obtain ⟨-, hword⟩ := List.append_inj' (h.split.symm.trans h'.split) rfl
    obtain rfl : word = word' := Item.code.inj (List.cons.inj hword).1
    exact ⟨hfront ▸ hlength, hmid.1 hnone⟩
  · rintro ⟨hlength, hnone⟩
    exact ⟨front, word, mid, h, hfront.trans hlength, hmid.2 hnone⟩

/-- In the group of the latest clause the scan takes the right arrow. -/
theorem LastClause.opensBody_iff_of_innermost (h : LastClause before front word mid)
    (hwhole : SkipsWhole before) (harrow : arrow.IsArrow)
    (hsame : innermost front = innermost before) :
    OpensBody before arrow ↔ IsClauseArrow before := by
  rw [h.opensBody_iff hwhole harrow]
  constructor
  · rintro ⟨-, hnone⟩
    refine ⟨front, word, mid, h.split, h.word, hsame, fun inner t rest hmid ht hplace => ?_⟩
    exact hnone inner t rest hmid ht (congrArg List.length (groupsAfter_eq_of_innermost hplace))
  · rintro ⟨front', word', mid', hsplit, hword, -, hnone⟩
    refine ⟨congrArg List.length (groupsAfter_eq_of_innermost hsame), ?_⟩
    intro inner t rest hmid ht hlength
    obtain ⟨more, hfront, rfl⟩ := h.covers hsplit hword
    apply hnone (more ++ inner) t rest (by rw [hmid, List.append_assoc]) ht
    have hplace : front' ++ [Item.code word'] ++ (more ++ inner) =
        front ++ [Item.code word] ++ inner := by
      rw [hfront]
      simp
    rw [hplace, List.append_assoc]
    refine innermost_between (Item.code t :: rest) hsame ?_ ?_
    · rw [h.split, hmid]
      simp
    · rwa [List.append_assoc] at hlength

/-- When the latest clause stands at the depth of the arrow, but in another group, no clause waits
in the group of the arrow. -/
theorem LastClause.not_isClauseArrow (h : LastClause before front word mid)
    (hother : innermost front ≠ innermost before)
    (hlength : (groupsAfter front).length = (groupsAfter before).length) :
    ¬ IsClauseArrow before := by
  rintro ⟨front', word', mid', hsplit, hword, hsame, -⟩
  obtain ⟨more, hfront, -⟩ := h.covers hsplit hword
  rcases concat_eq_split.1 hfront with ⟨rfl, -, -⟩ | ⟨more, -, rfl⟩
  · exact hother hsame
  · refine hother (innermost_between (Item.code word :: mid) hsame ?_ hlength)
    rw [h.split]

end Groups

/-- When no clause stands before an arrow, or the latest one stands directly in the group of the
arrow, the scan takes the arrow for the end of a pattern exactly when it is the first in this group
behind a clause. When the latest clause stands in another group, the scan goes by the depth: it
takes the arrow for that of the latest clause if this is as deep as the arrow and has met no arrow
there, and then no clause waits in the group of the arrow. -/
theorem opensBody_iff_isClauseArrow {tokens : List Token} (h : WellNested tokens)
    {before after : List Item} {arrow : Token}
    (hitems : Item.ofTokens tokens = before ++ Item.code arrow :: after) (harrow : arrow.IsArrow) :
    ((∀ item ∈ before, item.isClause = false) →
        ¬ OpensBody before arrow ∧ ¬ IsClauseArrow before) ∧
      ∀ front word mid, LastClause before front word mid →
        (innermost front = innermost before →
          (OpensBody before arrow ↔ IsClauseArrow before)) ∧
        (innermost front ≠ innermost before →
          (OpensBody before arrow ↔ (groupsAfter front).length = (groupsAfter before).length ∧
            NoArrow (fun place => (groupsAfter place).length = (groupsAfter before).length)
              (front ++ [Item.code word]) mid) ∧
          (OpensBody before arrow → ¬ IsClauseArrow before)) := by
  have hwhole : SkipsWhole before := fun item hitem =>
    skipsWhole_ofTokens h.matched item (hitems ▸ List.mem_append_left _ hitem)
  refine ⟨fun hnone => ⟨?_, ?_⟩, fun front word mid hlast => ⟨fun hsame => ?_, fun hother => ?_⟩⟩
  · rw [opensBody_iff harrow]
    have hwaits : (Scan.after before).patternDepth = none := by
      rcases Scan.patternDepth_foldl {} hnone with hend | hend <;> exact hend
    simp [hwaits]
  · rintro ⟨front, word, mid, rfl, hword, -⟩
    have hclause : (Item.code word).isClause = false := hnone _ (by simp)
    exact absurd hword (Bool.eq_false_iff.1 hclause)
  · exact hlast.opensBody_iff_of_innermost hwhole harrow hsame
  · have hopens := hlast.opensBody_iff hwhole harrow
    exact ⟨hopens, fun hbody => hlast.not_isClauseArrow hother (hopens.1 hbody).1⟩

/-- A lambda in a guard takes no arrow from the clause. -/
theorem opensBody_iff_isClauseArrow_guard :
    let tokens := tokenize "x match \x7b case a if f(y => z) => c \x7d".toList
    WellNested tokens ∧ ∃ before arrow after,
      Item.ofTokens tokens = before ++ Item.code arrow :: after ∧
        arrow.IsArrow ∧ arrow.start = ⟨1, 30⟩ ∧ IsClauseArrow before := by
  intro tokens
  let token (kind : Token.Kind) (text : String) (first last : Nat) : Token :=
    ⟨kind, text, ⟨1, first⟩, ⟨1, last⟩⟩
  let front := [token .ident "x" 0 1, token .keyword "match" 2 7, token .punct "\x7b" 8 9]
  let word := token .keyword "case" 10 14
  let mid := [token .ident "a" 15 16, token .keyword "if" 17 19, token .ident "f" 20 21,
    token .punct "(" 21 22, token .ident "y" 22 23, token .operator "=>" 24 26,
    token .ident "z" 27 28, token .punct ")" 28 29]
  let arrow := token .operator "=>" 30 32
  let back := [token .ident "c" 33 34, token .punct "\x7d" 35 36]
  let before := (front ++ word :: mid).map Item.code
  have hitems : Item.ofTokens tokens = before ++ Item.code arrow :: back.map Item.code := by
    decide +kernel
  have hnested : WellNested tokens := by
    rw [← Item.flatMap_tokens_ofTokens tokens, hitems]
    decide
  have hlast : LastClause before (front.map Item.code) word (mid.map Item.code) :=
    ⟨rfl, rfl, by decide⟩
  have hopens : OpensBody before arrow := by
    rw [opensBody_iff ⟨rfl, rfl⟩]
    decide
  obtain ⟨-, hclauses⟩ := opensBody_iff_isClauseArrow hnested hitems ⟨rfl, rfl⟩
  have hclause := ((hclauses _ _ _ hlast).1 (by decide)).1 hopens
  exact ⟨hnested, before, arrow, _, hitems, ⟨rfl, rfl⟩, rfl, hclause⟩

/-- After a match in the guard the scan has forgotten the clause around it, and behind a generator
it takes the arrow of a lambda for that of the clause in the generator. -/
theorem not_opensBody_iff_isClauseArrow :
    let nested :=
      tokenize "x match \x7b case a if (b match \x7b case 1 => true \x7d) => c \x7d".toList
    let generator := tokenize "for (case x <- xs) \x7b y => z \x7d".toList
    (∃ before arrow after, Item.ofTokens nested = before ++ Item.code arrow :: after ∧
        WellNested nested ∧ arrow.IsArrow ∧ IsClauseArrow before ∧ ¬ OpensBody before arrow) ∧
      (CodeMetrics.ofTokens nested).statements = 2 ∧
      (∃ before arrow after, Item.ofTokens generator = before ++ Item.code arrow :: after ∧
        WellNested generator ∧ arrow.IsArrow ∧ ¬ IsClauseArrow before ∧ OpensBody before arrow) ∧
      (CodeMetrics.ofTokens generator).statements = 3 := by
  intro nested generator
  let token (kind : Token.Kind) (text : String) (first last : Nat) : Token :=
    ⟨kind, text, ⟨1, first⟩, ⟨1, last⟩⟩
  refine ⟨?_, by decide +kernel, ?_, by decide +kernel⟩
  · let front := [token .ident "x" 0 1, token .keyword "match" 2 7, token .punct "\x7b" 8 9]
    let word := token .keyword "case" 10 14
    let mid := [token .ident "a" 15 16, token .keyword "if" 17 19, token .punct "(" 20 21,
      token .ident "b" 21 22, token .keyword "match" 23 28, token .punct "\x7b" 29 30,
      token .keyword "case" 31 35, token .number "1" 36 37, token .operator "=>" 38 40,
      token .keyword "true" 41 45, token .punct "\x7d" 46 47, token .punct ")" 47 48]
    let arrow := token .operator "=>" 49 51
    let back := [token .ident "c" 52 53, token .punct "\x7d" 54 55]
    let before := (front ++ word :: mid).map Item.code
    have hitems : Item.ofTokens nested = before ++ Item.code arrow :: back.map Item.code := by
      decide +kernel
    refine ⟨before, arrow, back.map Item.code, hitems, ?_, ⟨rfl, rfl⟩, ?_, ?_⟩
    · rw [← Item.flatMap_tokens_ofTokens nested, hitems]
      decide
    · exact ⟨front.map Item.code, word, mid.map Item.code, rfl, rfl, by decide, by decide⟩
    · rw [opensBody_iff ⟨rfl, rfl⟩]
      decide
  · let front := [token .keyword "for" 0 3, token .punct "(" 4 5]
    let word := token .keyword "case" 5 9
    let mid := [token .ident "x" 10 11, token .operator "<-" 12 14, token .ident "xs" 15 17,
      token .punct ")" 17 18, token .punct "\x7b" 19 20, token .ident "y" 21 22]
    let arrow := token .operator "=>" 23 25
    let back := [token .ident "z" 26 27, token .punct "\x7d" 28 29]
    let before := (front ++ word :: mid).map Item.code
    have hitems : Item.ofTokens generator = before ++ Item.code arrow :: back.map Item.code := by
      decide +kernel
    have hlast : LastClause before (front.map Item.code) word (mid.map Item.code) :=
      ⟨rfl, rfl, by decide⟩
    refine ⟨before, arrow, back.map Item.code, hitems, ?_, ⟨rfl, rfl⟩, ?_, ?_⟩
    · rw [← Item.flatMap_tokens_ofTokens generator, hitems]
      decide
    · exact hlast.not_isClauseArrow (by decide) (by decide)
    · rw [opensBody_iff ⟨rfl, rfl⟩]
      decide

end SourceGauge.Scala
