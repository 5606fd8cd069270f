import Mathlib
import SourceGauge.Proofs.Scala.Ledger
import SourceGauge.Proofs.Scala.OpenGroup
import SourceGauge.Proofs.Scala.TokenMap

/-! The functions that are open along a run outside all groups. A function at the outermost level
stays open until a statement begins at its level or another declaration stands there. As long as it
is open no decision is charged to the file, and when no function is open every decision is. -/
namespace SourceGauge.Scala
open Ledger (Charges)

namespace Scan

section Frames
variable {s : Scan} {items : List Item}

theorem previous_foldl (s : Scan) (items : List Item) :
    (items.foldl step s).previous = (codeTokens items).getLast?.or s.previous := by
  induction items using List.reverseRecOn with
  | nil => rfl
  | append_singleton items item ih =>
    rw [List.foldl_concat, codeTokens_append, List.getLast?_append]
    rcases item.eq_code_or_codeTokens_eq_nil with ⟨t, rfl⟩ | hitem
    · rfl
    · obtain ⟨hidden, documented, hstep⟩ := (items.foldl step s).exists_step_eq hitem
      rw [hitem, hstep]
      exact ih

/-- The frames of a run from outside all groups, apart from which braces are type bodies. -/
theorem frames_foldl (hs : s.frames = []) (items : List Item) :
    (items.foldl step s).frames.map (decide <| · = .paren) =
      (openGroups (codeTokens items)).map (!·.opening.isPunct "\x7b") := by
  induction items using List.reverseRecOn with
  | nil => rw [List.foldl_nil, hs]; rfl
  | append_singleton items item ih =>
    rw [List.foldl_concat, codeTokens_append]
    generalize items.foldl step s = s' at ih ⊢
    rcases item.eq_code_or_codeTokens_eq_nil with ⟨t, rfl⟩ | hitem
    · have hcode : codeTokens [.code t] = [t] := rfl
      have hframes : (s'.code t).frames = (s'.outline.code t).frames :=
        congrArg Outline.frames (outline_code s' t)
      rw [hcode, openGroups_concat, step, hframes, Outline.code]
      cases hbrace : t.isPunct "\x7b" with
      | true =>
        have hopening := (Token.isOpening_of_isPunct (d := ("\x7b", "\x7d")) (by decide) hbrace).1
        rw [hopening]
        cases hpending : s'.pendingTemplate <;> simp [outline, hpending, hbrace, ih]
      | false =>
        simp only [Bool.false_eq_true, if_false]
        split
        · simp [outline, hbrace, ih]
        split
        · rw [List.map_tail, List.map_tail]
          exact congrArg List.tail ih
        · exact ih
    · obtain ⟨hidden, documented, hstep⟩ := s'.exists_step_eq hitem
      rw [hitem, List.append_nil, hstep]
      exact ih

theorem depth_foldl (hs : s.frames = []) (items : List Item) :
    (items.foldl step s).depth = (openGroups (codeTokens items)).length := by
  simpa [depth] using congrArg List.length (frames_foldl hs items)

/-- What is no declaration among the items by themselves is none in a run from outside all groups.
-/
theorem declares_foldl (hs : s.frames = []) {t : Token} (h : ¬ Declares (codeTokens items) t) :
    (items.foldl step s).outline.declares t = false := by
  by_contra hdeclares
  simp only [Outline.declares, Bool.not_eq_false, Bool.and_eq_true, Bool.not_eq_true',
    decide_eq_true_eq] at hdeclares
  obtain ⟨⟨⟨hkind, hword⟩, hselected⟩, hparen⟩ := hdeclares
  refine h ⟨hkind, hword, ?_, ?_⟩
  · intro p hp
    have hprevious := previous_foldl s items
    rw [Option.mem_def.1 hp, Option.some_or] at hprevious
    have hselected : (items.foldl step s).previous.any (·.isPunct ".") = false := hselected
    rwa [hprevious] at hselected
  · rintro ⟨g, hg, hbrace⟩
    have hhead := congrArg List.head? (frames_foldl hs items)
    rw [List.head?_map, List.head?_map, Option.mem_def.1 hg] at hhead
    have hparen : decide ((items.foldl step s).frames.head? = some .paren) = false := hparen
    cases hframes : (items.foldl step s).frames.head? with
    | none => simp [hframes] at hhead
    | some frame => simp_all

end Frames

/-- Along the items every code token fits `p` in the state before it, and they close all groups,
when they are read from outside all groups. -/
structure Along (p : Scan → Token → Prop) (items : List Item) : Prop where
  closes : ∀ s : Scan, s.frames = [] → (items.foldl step s).frames = []
  code : ∀ s : Scan, s.frames = [] → ∀ before t after, items = before ++ Item.code t :: after →
    p (before.foldl step s) t

section Along
variable {p q : Scan → Token → Prop} {xs ys items : List Item}

theorem Along.mono (h : Along p items) (hpq : ∀ s t, p s t → q s t) : Along q items :=
  ⟨h.closes, fun s hs before t after hsplit => hpq _ _ (h.code s hs before t after hsplit)⟩

theorem Along.append (hxs : Along p xs) (hys : Along p ys) : Along p (xs ++ ys) := by
  refine ⟨fun s hs => ?_, fun s hs before t after hsplit => ?_⟩
  · rw [List.foldl_append]
    exact hys.closes _ (hxs.closes s hs)
  · rcases List.append_eq_append_iff.1 hsplit with ⟨more, rfl, hmore⟩ | ⟨more, rfl, hmore⟩
    · rw [List.foldl_append]
      exact hys.code _ (hxs.closes s hs) more t after hmore
    · cases more with
      | nil =>
        rw [List.append_nil] at hxs
        have hcode := hys.code _ (hxs.closes s hs) [] t after hmore.symm
        exact hcode
      | cons item more =>
        obtain ⟨rfl, -⟩ := List.cons.inj hmore
        exact hxs.code s hs before t more rfl

/-- A fact about the tokens themselves holds along the items as well. -/
theorem Along.and {r : Token → Prop} (h : Along p items) (hr : ∀ t ∈ codeTokens items, r t) :
    Along (fun s t => p s t ∧ r t) items := by
  refine ⟨h.closes, fun s hs before t after hsplit => ⟨h.code s hs before t after hsplit, hr t ?_⟩⟩
  rw [hsplit, codeTokens_append]
  exact List.mem_append_right _ List.mem_cons_self

/-- What one code token keeps is kept along the items. -/
theorem Along.foldl_front (h : Along p (xs ++ ys)) (inv : Scan → Prop) {s : Scan}
    (hs : s.frames = []) (hcode : ∀ s t, inv s → p s t → inv (s.code t))
    (hskip : ∀ s item, inv s → codeTokens [item] = [] → inv (s.step item)) (hinv : inv s) :
    inv (xs.foldl step s) := by
  induction xs using List.reverseRecOn generalizing ys with
  | nil => exact hinv
  | append_singleton xs item ih =>
    rw [List.append_assoc, List.singleton_append] at h
    rw [List.foldl_concat]
    rcases item.eq_code_or_codeTokens_eq_nil with ⟨t, rfl⟩ | hitem
    · exact hcode _ t (ih h) (h.code s hs xs t ys rfl)
    · exact hskip _ item (ih h) hitem

theorem Along.foldl (h : Along p items) (inv : Scan → Prop) {s : Scan} (hs : s.frames = [])
    (hcode : ∀ s t, inv s → p s t → inv (s.code t))
    (hskip : ∀ s item, inv s → codeTokens [item] = [] → inv (s.step item)) (hinv : inv s) :
    inv (items.foldl step s) :=
  @Along.foldl_front p items [] (by rwa [List.append_nil]) inv s hs hcode hskip hinv

end Along

end Scan

namespace Ledger

/-- A function outside all groups is open. -/
def OutermostOpen (l : Ledger) : Prop := ∃ f ∈ l.openFunctions, f.depth = 0

/-- The complexities that are listed when the scan ends here. -/
def complexities (l : Ledger) : List Nat :=
  (Scan.endFunctionsFrom 0 l.openFunctions l.ended).2.reverse

theorem complexities_eq (l : Ledger) :
    l.complexities = l.ended.reverse ++ l.openFunctions.map (1 + ·.decisions) := by
  have hall : l.openFunctions.takeWhile (0 ≤ ·.depth) = l.openFunctions :=
    List.takeWhile_eq_self_iff.2 (by simp)
  rw [complexities, Scan.endFunctionsFrom_eq, hall, List.reverse_append, List.reverse_reverse]

end Ledger

namespace Scan
variable {s : Scan} {t : Token} {depth : Nat}

section CloseFrom

theorem openFunctions_closeFrom (s : Scan) (depth : Nat) :
    (s.closeFrom depth).openFunctions = s.openFunctions.dropWhile (depth ≤ ·.depth) := by
  rw [closeFrom_eq, endFunctionsFrom_eq]

theorem outermostOpen_of_closeFrom (h : (s.closeFrom depth).ledger.OutermostOpen) :
    s.ledger.OutermostOpen := by
  obtain ⟨f, hf, hdepth⟩ := h
  rw [ledger, openFunctions_closeFrom] at hf
  exact ⟨f, (List.dropWhile_suffix _).subset hf, hdepth⟩

/-- A function at the outermost level outlasts what ends further inside. -/
theorem outermostOpen_closeFrom (h : s.ledger.OutermostOpen) (hdepth : 1 ≤ depth) :
    (s.closeFrom depth).ledger.OutermostOpen := by
  obtain ⟨f, hf, hzero⟩ := h
  refine ⟨f, ?_, hzero⟩
  rw [ledger, openFunctions_closeFrom]
  have hsplit : f ∈ s.openFunctions.takeWhile (depth ≤ ·.depth) ++
      s.openFunctions.dropWhile (depth ≤ ·.depth) := by rwa [List.takeWhile_append_dropWhile]
  refine (List.mem_append.1 hsplit).resolve_left fun hclosed => ?_
  have hdeep : decide (depth ≤ f.depth) = true :=
    List.mem_takeWhile_imp (p := fun g : OpenFunction => decide (depth ≤ g.depth)) hclosed
  rw [hzero, decide_eq_true_eq] at hdeep
  omega

theorem complexities_closeFrom (s : Scan) (depth : Nat) :
    (s.closeFrom depth).ledger.complexities = s.ledger.complexities := by
  have hsplit := List.takeWhile_append_dropWhile (p := (depth ≤ ·.depth)) (l := s.openFunctions)
  rw [Ledger.complexities_eq, Ledger.complexities_eq]
  simp only [ledger, closeFrom_eq, endFunctionsFrom_eq]
  rw [List.reverse_append, List.reverse_reverse, List.append_assoc, ← List.map_append, hsplit]

end CloseFrom

section CountDecision

theorem outermostOpen_countDecision :
    s.countDecision.ledger.OutermostOpen ↔ s.ledger.OutermostOpen := by
  unfold countDecision
  cases h : s.openFunctions <;> simp [Ledger.OutermostOpen, ledger, h]

theorem outside_countDecision (h : s.openFunctions ≠ []) : s.countDecision.outside = s.outside := by
  unfold countDecision
  split
  case h_1 hnil => exact absurd hnil h
  case h_2 => rfl

end CountDecision

theorem outline_enter (s : Scan) (t : Token) : (s.enter t).outline = s.outline := by
  unfold enter
  split <;> rfl

theorem outside_enter (s : Scan) (t : Token) : (s.enter t).outside = s.outside := by
  unfold enter
  split <;> rfl

theorem openFunctions_ne_nil (h : s.ledger.OutermostOpen) : s.openFunctions ≠ [] := by
  obtain ⟨f, hf, -⟩ := h
  exact List.ne_nil_of_mem hf

section Consume

theorem outermostOpen_consume (h : s.outline.declares t = true → 1 ≤ s.depth) :
    (s.consume t).ledger.OutermostOpen ↔ s.ledger.OutermostOpen := by
  have hclose {depth : Nat} (hdepth : 1 ≤ depth) (s : Scan) :
      (s.closeFrom depth).ledger.OutermostOpen ↔ s.ledger.OutermostOpen :=
    ⟨outermostOpen_of_closeFrom, (outermostOpen_closeFrom · hdepth)⟩
  rw [ledger_consume]
  split
  case isTrue hdeclares =>
    have hdepth := h hdeclares
    have hopen (s' : Scan) (hs' : s'.depth = s.depth) :
        s'.openFunction.ledger.OutermostOpen ↔ s'.ledger.OutermostOpen := by
      have hne : s'.depth ≠ 0 := by omega
      simp [Ledger.OutermostOpen, ledger, openFunction, hne]
    split
    · exact (hopen (s.closeFrom s.depth) rfl).trans (hclose hdepth s)
    · exact hclose hdepth s
  split
  · exact outermostOpen_countDecision
  split
  · exact hclose (Nat.le_add_left ..) { s with frames := s.frames.tail }
  · rfl

theorem outside_consume (h : s.openFunctions ≠ []) : (s.consume t).outside = s.outside := by
  have hledger := congrArg Ledger.outside (ledger_consume s t)
  refine hledger.trans ?_
  split
  · split <;> rfl
  split
  · exact outside_countDecision h
  split <;> rfl

theorem outside_le_consume (s : Scan) (t : Token) : s.outside ≤ (s.consume t).outside := by
  cases h : s.openFunctions with
  | cons f rest => exact Nat.le_of_eq (outside_consume (by simp [h])).symm
  | nil =>
    have hledger : (s.consume t).outside = _ := congrArg Ledger.outside (ledger_consume s t)
    rw [hledger]
    split
    · split <;> exact Nat.le_refl _
    split
    · simp [countDecision, h, ledger]
    split <;> exact Nat.le_refl _

end Consume

section Code

theorem depth_code (s : Scan) (t : Token) :
    (s.code t).depth =
      if t.isOpening then s.depth + 1 else if t.isClosing then s.depth - 1 else s.depth := by
  have hframes : (s.code t).frames = (s.outline.code t).frames :=
    congrArg Outline.frames (outline_code s t)
  rw [depth, hframes, Outline.code]
  split
  case isTrue hbrace =>
    rw [(Token.isOpening_of_isPunct (d := ("\x7b", "\x7d")) (by decide) hbrace).1]
    rfl
  split
  · rfl
  split
  · exact List.length_tail
  · rfl

theorem one_le_depth_of_declares (ht : s.depth = 0 → s.outline.declares t = false)
    (hdeclares : (s.enter t).outline.declares t = true) : 1 ≤ (s.enter t).depth := by
  have hsame : (s.enter t).depth = s.depth :=
    congrArg (fun o => o.frames.length) (outline_enter s t)
  rw [outline_enter] at hdeclares
  rw [hsame]
  by_contra hdepth
  rw [ht (by omega)] at hdeclares
  cases hdeclares

/-- Inside a group, and outside all groups where no statement and no declaration begins, the
function at the outermost level stays open and takes the decisions. -/
theorem outermostOpen_code (h : s.ledger.OutermostOpen)
    (ht : s.depth = 0 → s.startsStatement t = false ∧ s.outline.declares t = false) :
    (s.code t).ledger.OutermostOpen ∧ (s.code t).outside = s.outside := by
  have hbegin : (s.enter t).ledger.OutermostOpen := by
    unfold enter
    split
    case isTrue hstarts =>
      have hdepth : 1 ≤ s.depth := by
        by_contra hdepth
        rw [(ht (by omega)).1] at hstarts
        cases hstarts
      exact outermostOpen_closeFrom (s := { s with statements := s.statements + 1 }) h hdepth
    case isFalse => exact h
  rw [code_eq]
  exact ⟨(outermostOpen_consume (one_le_depth_of_declares fun hzero => (ht hzero).2)).2 hbegin,
    (outside_consume (openFunctions_ne_nil hbegin)).trans (outside_enter s t)⟩

/-- No function opens at the outermost level, except by a declaration there. -/
theorem not_outermostOpen_code (h : ¬ s.ledger.OutermostOpen)
    (ht : s.depth = 0 → s.outline.declares t = false) :
    ¬ (s.code t).ledger.OutermostOpen := by
  rw [code_eq, outermostOpen_consume (one_le_depth_of_declares ht), enter]
  split
  · exact mt (outermostOpen_of_closeFrom (s := { s with statements := s.statements + 1 })) h
  · exact h

/-- Where no function is open and none is declared, none has to end. -/
theorem openFunctions_code_of_nil (h : s.openFunctions = []) (ht : s.outline.declares t = false) :
    (s.code t).openFunctions = [] ∧ (s.code t).ended = s.ended := by
  have hclose (s' : Scan) (hs' : s'.openFunctions = []) (depth : Nat) :
      (s'.closeFrom depth).openFunctions = [] ∧ (s'.closeFrom depth).ended = s'.ended := by
    rw [closeFrom_of_openFunctions_eq_nil hs']
    exact ⟨hs', rfl⟩
  obtain ⟨hopen, hended⟩ : (s.enter t).openFunctions = [] ∧ (s.enter t).ended = s.ended := by
    unfold enter
    split
    · exact hclose { s with statements := s.statements + 1 } h s.depth
    · exact ⟨h, rfl⟩
  have hbegin := outline_enter s t
  rw [code_eq]
  generalize s.enter t = s' at hopen hended hbegin ⊢
  have hledger := ledger_consume s' t
  rw [hbegin, ht, if_neg Bool.false_ne_true] at hledger
  obtain ⟨s'', hconsume, hnil, hsame⟩ : ∃ s'' : Scan, (s'.consume t).ledger = s''.ledger ∧
      s''.openFunctions = [] ∧ s''.ended = s'.ended := by
    refine ⟨_, hledger, ?_⟩
    split
    · simp [countDecision, hopen]
    split
    · exact hclose { s' with frames := s'.frames.tail } hopen _
    · exact ⟨hopen, rfl⟩
  exact ⟨(congrArg Ledger.openFunctions hconsume).trans hnil,
    (congrArg Ledger.ended hconsume).trans (hsame.trans hended)⟩

/-- A token that neither declares nor decides changes no complexity, whichever functions it ends. -/
theorem complexities_code (ht : s.outline.declares t = false) (hdecides : t.decides = false) :
    (s.code t).ledger.complexities = s.ledger.complexities := by
  have hbegin : (s.enter t).ledger.complexities = s.ledger.complexities := by
    unfold enter
    split
    · exact complexities_closeFrom { s with statements := s.statements + 1 } s.depth
    · rfl
  rw [code_eq, ledger_consume, outline_enter, ht, hdecides, ← hbegin]
  simp only [Bool.false_eq_true, if_false]
  generalize s.enter t = s'
  split
  · exact complexities_closeFrom { s' with frames := s'.frames.tail } _
  · rfl

theorem outside_le_foldl (s : Scan) (items : List Item) :
    s.outside ≤ (items.foldl step s).outside := by
  induction items generalizing s with
  | nil => exact Nat.le_refl _
  | cons item items ih =>
    refine Nat.le_trans ?_ (ih (s.step item))
    rcases item.eq_code_or_codeTokens_eq_nil with ⟨t, rfl⟩ | hitem
    · rw [step, code_eq, ← outside_enter s t]
      exact outside_le_consume _ t
    · exact Nat.le_of_eq (congrArg Ledger.outside (ledger_step s hitem)).symm

end Code

section Run
variable {items : List Item}

/-- When no function is open and none is declared, all decisions are charged to the file. -/
theorem outside_foldl_of_nil (h : Along (fun s t => s.outline.declares t = false) items)
    (hframes : s.frames = []) (hopen : s.openFunctions = []) :
    (items.foldl step s).openFunctions = [] ∧
      (items.foldl step s).outside = s.outside + (codeTokens items).countP Token.decides := by
  obtain ⟨hnil, hended⟩ : (items.foldl step s).openFunctions = [] ∧
      (items.foldl step s).ended = s.ended := by
    refine h.foldl (fun s' => s'.openFunctions = [] ∧ s'.ended = s.ended) hframes ?_ ?_
      ⟨hopen, rfl⟩
    · intro s' t hs' ht
      obtain ⟨hnil, hended⟩ := openFunctions_code_of_nil hs'.1 ht
      exact ⟨hnil, hended.trans hs'.2⟩
    · intro s' item hs' hitem
      obtain ⟨hidden, documented, hstep⟩ := s'.exists_step_eq hitem
      rwa [hstep]
  have hcharged := (charges_foldl s items).charged
  simp only [Ledger.charged, ledger, hnil, hopen, hended, List.map_nil, List.sum_nil] at hcharged
  exact ⟨hnil, by omega⟩

/-- Without declarations and decisions the complexities stay as they are. -/
theorem complexities_foldl (h : Along (fun s t => s.outline.declares t = false) items)
    (hdecides : ∀ t ∈ codeTokens items, t.decides = false) (hframes : s.frames = []) :
    (items.foldl step s).ledger.complexities = s.ledger.complexities := by
  refine (h.and hdecides).foldl (fun s' => s'.ledger.complexities = s.ledger.complexities)
    hframes ?_ ?_ rfl
  · intro s' t hs' ht
    exact (complexities_code ht.1 ht.2).trans hs'
  · intro s' item hs' hitem
    rwa [ledger_step s' hitem]

end Run

end Scan
end SourceGauge.Scala
