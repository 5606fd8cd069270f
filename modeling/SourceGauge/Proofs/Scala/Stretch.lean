import Mathlib
import SourceGauge.Proofs.Scala.Inside
import SourceGauge.Proofs.Scala.LineStart

/-! A line break behind an open function. The tokens before it stand on one line and are read on
their own. The function goes on behind the break unless the tokens there begin a statement; then
their decisions are lost to the file. -/
namespace SourceGauge.Scala

/-- Behind a line break such tokens begin with a statement, and a decision stands among them. -/
def losesDecisions (ts : List Token) : Bool :=
  (codeTokens (Item.ofTokens ts)).head?.any Scan.canStartStatement &&
    (codeTokens (Item.ofTokens ts)).any Token.decides

theorem codeTokens_ofTokens_subset (ts : List Token) : codeTokens (Item.ofTokens ts) ⊆ ts := by
  intro t ht
  obtain ⟨item, hitem, hcode⟩ := List.mem_filterMap.1 ht
  rw [← Item.flatMap_tokens_ofTokens ts]
  refine List.mem_flatMap.2 ⟨item, hitem, ?_⟩
  cases item <;> simp_all [Item.tokens]

namespace Scan

/-- A token that declares nothing, and does nothing to a function outside all groups. -/
def Inert (s : Scan) (t : Token) : Prop := s.outline.declares t = false ∧ s.Quiet t

section Break
variable {n : Nat} {s s' : Scan} {items : List Item}

theorem Inside.endsLine (h : Inside n s) (hframes : s.frames = [])
    (hleads : ∀ p ∈ s.previous, isContinuation p = false) : s.EndsLine n := by
  have hdepth : s.depth = 0 := congrArg List.length hframes
  obtain ⟨p, hprevious, hline, hmarks⟩ := h.last
  refine ⟨?_, h.arrow hdepth, p, hprevious, hline, (hmarks hdepth).1, (hmarks hdepth).2,
    hleads p hprevious⟩
  rw [inParen, hframes]
  rfl

/-- A statement outside all groups ends every function. -/
theorem openFunctions_beginStatement (hframes : s.frames = []) :
    s.beginStatement.openFunctions = [] := by
  have hdepth : s.depth = 0 := congrArg List.length hframes
  rw [beginStatement, hdepth]
  exact openFunctions_closeFrom_zero _

/-- Scans that were charged the same list different complexities if they charged the file
differently. -/
theorem complexities_ne_of_outside (hs : s.ledger.Accounted) (hs' : s'.ledger.Accounted)
    (hcharged : s'.ledger.charged = s.ledger.charged) (houtside : s'.outside ≠ s.outside) :
    s'.metrics.functionComplexities ≠ s.metrics.functionComplexities := by
  intro heq
  obtain ⟨hfunctions, -, hsum, -⟩ := metrics_of_accounted s hs
  obtain ⟨hfunctions', -, hsum', -⟩ := metrics_of_accounted s' hs'
  rw [hfunctions', heq, hcharged, ← hfunctions, ← hsum] at hsum'
  exact houtside (Nat.add_left_cancel hsum')

theorem complexities_beginStatement_ne (hs : s.ledger.Accounted)
    (houtside : (items.foldl step s).outside = 0)
    (hlost : 1 ≤ (items.foldl step s.beginStatement).outside) :
    (items.foldl step s.beginStatement).metrics.functionComplexities ≠
      (items.foldl step s).metrics.functionComplexities := by
  have hbegin : Ledger.Charges 0 s.ledger s.beginStatement.ledger :=
    charges_closeFrom { s with statements := s.statements + 1 } s.depth
  have hsame := charges_foldl s items
  have hbroken := hbegin.trans (charges_foldl s.beginStatement items)
  refine complexities_ne_of_outside (hsame.accounted hs) (hbroken.accounted hs) ?_ (by omega)
  rw [hbroken.charged, hsame.charged, Nat.zero_add]

/-- Behind a break tokens without declarations leave the complexities as they are on one line,
unless a statement begins with them and they decide. -/
theorem Inside.complexities_break (h : Inside n s) (hframes : s.frames = [])
    (hs : s.ledger.Accounted) {ts : List Token} (hts : Along Inert (Item.ofTokens ts))
    (hline : ∀ t ∈ ts, t.start.line = n ∧ t.stop.line = n) :
    ((Item.ofTokens ts).foldl step
        (if (codeTokens (Item.ofTokens ts)).head?.any canStartStatement then s.beginStatement
          else s)).metrics.functionComplexities =
      ((Item.ofTokens ts).foldl step s).metrics.functionComplexities ↔
    losesDecisions ts = false := by
  have hdeclares := hts.mono fun _ _ ht => ht.1
  unfold losesDecisions
  cases (codeTokens (Item.ofTokens ts)).head?.any canStartStatement with
  | false => simp
  | true =>
    rw [if_pos rfl, Bool.true_and]
    cases hany : (codeTokens (Item.ofTokens ts)).any Token.decides with
    | false =>
      have hnone : ∀ t ∈ codeTokens (Item.ofTokens ts), t.decides = false := by
        simpa using hany
      have hbroken := complexities_foldl (s := s.beginStatement) hdeclares hnone hframes
      have hsame := complexities_foldl hdeclares hnone hframes
      have hbegin : s.beginStatement.ledger.complexities = s.ledger.complexities :=
        complexities_closeFrom { s with statements := s.statements + 1 } s.depth
      exact iff_of_true ((hbroken.trans hbegin).trans hsame.symm) rfl
    | true =>
      refine iff_of_false (complexities_beginStatement_ne hs ?_ ?_) nofun
      · refine (h.foldl (hts.mono fun _ _ ht => ht.2) hframes fun t ht => ?_).outside
        exact hline t (codeTokens_ofTokens_subset ts ht)
      · have hopen := openFunctions_beginStatement hframes
        rw [(outside_foldl_of_nil (s := s.beginStatement) hdeclares hframes hopen).2]
        obtain ⟨t, ht, hdecides⟩ := List.any_eq_true.1 hany
        have hcount := List.countP_pos_iff.2 ⟨t, ht, hdecides⟩
        omega

end Break

/-- Tokens that are read on their own, wherever they stand, and of which each fits `p`. -/
structure Stretch (p : Scan → Token → Prop) (ts : List Token) : Prop where
  parts : ∀ rest, Item.ofTokens (ts ++ rest) = Item.ofTokens ts ++ Item.ofTokens rest
  along : Along p (Item.ofTokens ts)

section Stretch
variable {p q : Scan → Token → Prop} {xs ys : List Token}

theorem Stretch.mono (h : Stretch p xs) (hpq : ∀ s t, p s t → q s t) : Stretch q xs :=
  ⟨h.parts, h.along.mono hpq⟩

theorem Stretch.append (hxs : Stretch p xs) (hys : Stretch p ys) : Stretch p (xs ++ ys) := by
  refine ⟨fun rest => ?_, ?_⟩
  · rw [List.append_assoc, hxs.parts, hys.parts, hxs.parts, List.append_assoc]
  · rw [hxs.parts]
    exact hxs.along.append hys.along

theorem stretch_code {t : Token} (hread : ∀ rest, Item.read t rest = (.code t, 0))
    (ht : t.isOpening = false ∧ t.isClosing = false) (hp : ∀ s, p s t) : Stretch p [t] := by
  have hitems (rest : List Token) : Item.ofTokens (t :: rest) = .code t :: Item.ofTokens rest :=
    Item.ofTokens_cons_of_read (hread rest)
  have halone : Item.ofTokens [t] = [.code t] := by rw [hitems, Item.ofTokens]
  refine ⟨fun rest => ?_, ?_⟩
  · rw [halone]
    exact hitems rest
  · rw [halone]
    exact along_code ht fun s _ => hp s

theorem stretch_group {d : String × String} (hd : d ∈ delimiters) {g : Group} (hg : g.IsOf d) :
    Stretch Quiet g.tokens := by
  refine ⟨fun rest => ?_, hg.along_quiet hd⟩
  rw [hg.ofTokens_append hd, hg.ofTokens_tokens hd]
  simp

end Stretch

/-- The tokens begin with a function on line `n` that is still open, and all groups are closed. -/
structure Opened (n : Nat) (front : List Token) : Prop where
  parts : ∀ rest, Item.ofTokens (front ++ rest) = Item.ofTokens front ++ Item.ofTokens rest
  inside : Inside n (after (Item.ofTokens front))
  frames : (after (Item.ofTokens front)).frames = []

section Opened
variable {n : Nat} {front ts : List Token}

theorem Opened.after_append (h : Opened n front) (ts : List Token) :
    after (Item.ofTokens (front ++ ts)) =
      (Item.ofTokens ts).foldl step (after (Item.ofTokens front)) := by
  rw [after, h.parts, List.foldl_append, after]

theorem Opened.append (h : Opened n front) (hts : Stretch Quiet ts)
    (hline : ∀ t ∈ ts, t.start.line = n ∧ t.stop.line = n) : Opened n (front ++ ts) := by
  refine ⟨fun rest => ?_, ?_, ?_⟩
  · rw [List.append_assoc, h.parts, hts.parts, h.parts, List.append_assoc]
  · rw [h.after_append]
    exact h.inside.foldl hts.along h.frames fun t ht =>
      hline t (codeTokens_ofTokens_subset ts ht)
  · rw [h.after_append]
    exact hts.along.closes _ h.frames

/-- The closing mark of a group does not lead on. -/
theorem Opened.leads_group (h : Opened n front) (hts : Stretch Quiet ts) {d : String × String}
    (hd : d ∈ delimiters) {g : Group} (hg : g.IsOf d) :
    ∀ p ∈ (after (Item.ofTokens (front ++ (ts ++ g.tokens)))).previous,
      isContinuation p = false := by
  have hprevious : (after (Item.ofTokens (front ++ (ts ++ g.tokens)))).previous =
      some g.closing := by
    rw [h.after_append, hts.parts, hg.ofTokens_tokens hd, ← List.cons_append, ← List.append_assoc,
      List.foldl_concat]
    rfl
  rw [hprevious]
  rintro p ⟨rfl⟩
  obtain ⟨hkind, htext⟩ := Token.isPunct_iff.1 hg.closing
  have hmarks : ∀ d ∈ delimiters, [",", ".", "(", "["].contains d.2 = false := by decide
  rw [isContinuation, hkind]
  exact (congrArg _ htext).trans (hmarks d hd)

theorem Opened.metrics (h : Opened n front) (ts : List Token) :
    CodeMetrics.ofTokens (front ++ ts) =
      ((Item.ofTokens ts).foldl step (after (Item.ofTokens front))).metrics := by
  rw [CodeMetrics.ofTokens, run, h.parts, List.foldl_append, after]

variable {f : Token → Token} (hf : Token.Keeps f)
  (hlater : ∀ t : Token, t.start.line < (f t).start.line)
include hf hlater

theorem Opened.metrics_later (h : Opened n front)
    (hleads : ∀ p ∈ (after (Item.ofTokens front)).previous, isContinuation p = false)
    (hline : ∀ t ∈ ts, t.start.line = n) :
    CodeMetrics.ofTokens (front ++ ts.map f) =
      ((Item.ofTokens ts).foldl step
        (if (codeTokens (Item.ofTokens ts)).head?.any canStartStatement
          then (after (Item.ofTokens front)).beginStatement
          else after (Item.ofTokens front))).metrics := by
  rw [h.metrics, Item.ofTokens_map hf]
  refine (h.inside.endsLine h.frames hleads).metrics_later hf ?_ hlater
    fun _ _ => Item.kind_of_modifier
  intro t ht
  exact hline t (codeTokens_ofTokens_subset ts (List.mem_of_mem_head? ht))

theorem Opened.functionComplexities_later (h : Opened n front)
    (hleads : ∀ p ∈ (after (Item.ofTokens front)).previous, isContinuation p = false)
    (hts : Along Inert (Item.ofTokens ts))
    (hline : ∀ t ∈ ts, t.start.line = n ∧ t.stop.line = n) :
    (CodeMetrics.ofTokens (front ++ ts.map f)).functionComplexities =
        (CodeMetrics.ofTokens (front ++ ts)).functionComplexities ↔
      losesDecisions ts = false := by
  rw [h.metrics_later hf hlater hleads fun t ht => (hline t ht).1, h.metrics]
  exact h.inside.complexities_break h.frames (accounted_after _) hts hline

end Opened

end Scan
end SourceGauge.Scala
