import Mathlib
import SourceGauge.Proofs.Scala.Clause

/-! Functions and the decisions that are charged to them. A code token declares, is a decision,
closes a group or does none of these to the books. Each decision is charged once, to an open
function or to the file, and a function that ends keeps what it was charged. -/
namespace SourceGauge.Scala

/-- The part of a scan that functions and their complexities depend on. -/
structure Ledger where
  functions : Nat
  openFunctions : List OpenFunction
  ended : List Nat
  outside : Nat

namespace Ledger

/-- The decisions counted so far, for open functions, for ended ones and for the file. -/
def charged (l : Ledger) : Nat :=
  l.outside + (l.openFunctions.map OpenFunction.decisions).sum + (l.ended.map (· - 1)).sum

/-- Every function that is counted is open or has ended, and an ended one counts itself. -/
structure Accounted (l : Ledger) : Prop where
  functions : l.functions = l.openFunctions.length + l.ended.length
  positive : ∀ c ∈ l.ended, 1 ≤ c

/-- From `l` to `l'` so many decisions are charged, and no function is lost. -/
structure Charges (n : Nat) (l l' : Ledger) : Prop where
  charged : l'.charged = l.charged + n
  accounted : l.Accounted → l'.Accounted

theorem Charges.trans {m n : Nat} {l l' l'' : Ledger} (h : Charges m l l') (h' : Charges n l' l'') :
    Charges (m + n) l l'' where
  charged := by rw [h'.charged, h.charged, Nat.add_assoc]
  accounted := h'.accounted ∘ h.accounted

theorem Charges.rfl {l : Ledger} : Charges 0 l l := ⟨by rfl, id⟩

end Ledger

open Ledger (Charges)

/-- A code token that is a decision point. -/
def Token.decides (t : Token) : Bool :=
  match t.kind with
  | .keyword => t.text = "if" || t.text = "while" || t.text = "for" || t.text = "case"
  | .operator => t.text = "&&" || t.text = "||"
  | _ => false

namespace Scan

def ledger (s : Scan) : Ledger := ⟨s.functions, s.openFunctions, s.ended, s.outside⟩

/-- A function opens here. -/
def openFunction (s : Scan) : Scan :=
  { s with functions := s.functions + 1, openFunctions := ⟨s.depth, 0⟩ :: s.openFunctions }

/-- A statement begins, if the code token starts one. -/
def enter (s : Scan) (t : Token) : Scan := if s.startsStatement t then s.beginStatement else s

/-- What a code token does once it is settled whether a statement begins with it. -/
def consume (s : Scan) (t : Token) : Scan :=
  let next :=
    match t.kind with
    | .punct => s.punct t.text
    | .operator => s.operator t.text
    | .keyword => s.keyword t.text
    | _ => s
  { next with
    afterCaseArrow := s.endsPattern t
    hidden := false
    documented := false
    previous := some t }

section Step
variable (s : Scan) (t : Token)

theorem code_eq : s.code t = (s.enter t).consume t := rfl

theorem ledger_countApi : s.countApi.ledger = s.ledger := by
  unfold countApi
  split <;> rfl

theorem ledger_declaration (word : String) (h : s.inParen = false) :
    (s.declaration word).ledger =
      (if word = "def" then (s.closeFrom s.depth).openFunction
        else s.closeFrom s.depth).ledger := by
  simp only [declaration, h, Bool.false_eq_true, if_false, ledger_countApi]
  split
  · rfl
  split <;> rfl

variable {t}

theorem ledger_punct (ht : t.kind = .punct) :
    (s.punct t.text).ledger = (if t.isClosing then s.closeFrame else s).ledger := by
  have hclosing : t.isClosing = (t.text = "\x7d" || t.text = ")" || t.text = "]") := by
    simp [Token.isClosing, delimiters, Token.isPunct, ht, Bool.or_comm, Bool.or_left_comm]
  rw [hclosing]
  unfold punct
  split
  case isTrue hmark =>
    rw [hmark]
    rfl
  split
  case isTrue hmark => rcases Bool.or_eq_true_iff.1 hmark with hmark | hmark <;>
    simp [of_decide_eq_true hmark, openFrame, ledger]
  case isFalse => split <;> rfl

theorem ledger_operator (ht : t.kind = .operator) :
    (s.operator t.text).ledger = (if t.decides then s.countDecision else s).ledger := by
  have hdecides : t.decides = (t.text = "&&" || t.text = "||") := by simp [Token.decides, ht]
  rw [hdecides]
  unfold operator
  split
  · rfl
  split
  · split <;> rfl
  split <;> rfl

theorem ledger_keyword (ht : t.kind = .keyword) :
    (s.keyword t.text).ledger =
      (if s.outline.declares t then
        if t.text = "def" then (s.closeFrom s.depth).openFunction else s.closeFrom s.depth
      else if t.decides then s.countDecision else s).ledger := by
  have hdecides : t.decides =
      ((t.text = "if" || t.text = "while" || t.text = "for") || t.text = "case") := by
    simp [Token.decides, ht, Bool.or_assoc]
  have hdeclares : s.outline.declares t =
      ((declarations.contains t.text && !s.previous.any (·.isPunct ".")) && !s.inParen) := by
    simp only [Outline.declares, ht, decide_true, Bool.true_and]
    rfl
  have hwords : ∀ word ∈ ["if", "while", "for", "case"], declarations.contains word = false := by
    decide
  rw [hdecides, hdeclares]
  unfold keyword
  split
  case isTrue hword =>
    have hother : declarations.contains t.text = false := hwords t.text (by grind)
    rw [hother, hword]
    rfl
  case isFalse hbranch =>
  split
  case isTrue hword =>
    rw [hwords t.text (by grind), Bool.eq_false_iff.2 hbranch, hword]
    rfl
  case isFalse hcase =>
  have hnone : ((t.text = "if" || t.text = "while" || t.text = "for") || t.text = "case") =
      false := by
    rw [Bool.eq_false_iff.2 hbranch, Bool.false_or]
    exact decide_eq_false hcase
  rw [hnone]
  split
  case isTrue hword =>
    rw [hword]
    cases hparen : s.inParen with
    | true =>
      rw [declaration, hparen]
      rfl
    | false => rw [ledger_declaration s t.text hparen]; rfl
  case isFalse hword =>
    rw [Bool.eq_false_iff.2 hword]
    rfl

variable (t)

/-- What a code token can do to the books. -/
theorem ledger_consume :
    (s.consume t).ledger =
      (if s.outline.declares t then
        if t.text = "def" then (s.closeFrom s.depth).openFunction else s.closeFrom s.depth
      else if t.decides then s.countDecision
      else if t.isClosing then s.closeFrame
      else s).ledger := by
  have hdeclares (h : t.kind ≠ .keyword) : s.outline.declares t = false := by
    simp [Outline.declares, h]
  have hclosing (h : t.kind ≠ .punct) : t.isClosing = false := (Token.not_delimiter_of_kind h).2
  unfold consume
  cases ht : t.kind with
  | punct =>
    rw [hdeclares (by simp [ht]), (by simp [Token.decides, ht] : t.decides = false)]
    exact ledger_punct s ht
  | operator =>
    rw [hdeclares (by simp [ht]), hclosing (by simp [ht])]
    exact ledger_operator s ht
  | keyword =>
    rw [hclosing (by simp [ht])]
    exact ledger_keyword s ht
  | _ =>
    rw [hdeclares (by simp [ht]), hclosing (by simp [ht]),
      (by simp [Token.decides, ht] : t.decides = false)]
    rfl

end Step

/-- The functions that end are the innermost ones, as far as they are deep enough. -/
theorem endFunctionsFrom_eq (depth : Nat) (functions : List OpenFunction) (ended : List Nat) :
    endFunctionsFrom depth functions ended =
      (functions.dropWhile (depth ≤ ·.depth),
        ((functions.takeWhile (depth ≤ ·.depth)).map (1 + ·.decisions)).reverse ++ ended) := by
  induction functions generalizing ended with
  | nil => rfl
  | cons f functions ih =>
    rw [endFunctionsFrom]
    split
    case isTrue h => simp [ih, h]
    case isFalse h => simp [h]

section Charges
variable (s : Scan)

theorem charges_closeFrom (depth : Nat) : Charges 0 s.ledger (s.closeFrom depth).ledger := by
  have hsplit := List.takeWhile_append_dropWhile (p := (depth ≤ ·.depth)) (l := s.openFunctions)
  simp only [ledger, closeFrom_eq, endFunctionsFrom_eq]
  generalize s.openFunctions.takeWhile (depth ≤ ·.depth) = closed at hsplit ⊢
  generalize s.openFunctions.dropWhile (depth ≤ ·.depth) = remaining at hsplit ⊢
  rw [← hsplit]
  refine ⟨?_, fun h => ⟨?_, ?_⟩⟩
  · have hclosed : (fun c => c - 1) ∘ (fun f : OpenFunction => 1 + f.decisions) =
        OpenFunction.decisions := by
      funext f
      exact Nat.add_sub_cancel_left ..
    simp only [Ledger.charged, List.map_append, List.map_reverse, List.map_map, hclosed,
      List.sum_append, List.sum_reverse]
    omega
  · rw [h.functions]
    simp only [List.length_append, List.length_reverse, List.length_map]
    omega
  · simp only [List.mem_append, List.mem_reverse, List.mem_map]
    rintro c (⟨f, -, rfl⟩ | hc)
    · exact Nat.le_add_right ..
    · exact h.positive c hc

theorem charges_openFunction : Charges 0 s.ledger s.openFunction.ledger := by
  refine ⟨?_, fun h => ⟨?_, h.positive⟩⟩
  · simp [Ledger.charged, ledger, openFunction]
  · have hfunctions := h.functions
    simp only [ledger, openFunction, List.length_cons] at hfunctions ⊢
    omega

theorem charges_countDecision : Charges 1 s.ledger s.countDecision.ledger := by
  unfold countDecision
  split
  case h_1 h =>
    refine ⟨?_, fun hl => ⟨hl.functions, hl.positive⟩⟩
    simp only [Ledger.charged, ledger]
    omega
  case h_2 f rest h =>
    simp only [ledger, h]
    refine ⟨?_, fun hl => ⟨hl.functions, hl.positive⟩⟩
    simp only [Ledger.charged, List.map_cons, List.sum_cons]
    omega

theorem decides_of_declares {t : Token} (h : s.outline.declares t = true) : t.decides = false := by
  have hwords : ∀ word ∈ declarations,
      (word = "if" || word = "while" || word = "for" || word = "case") = false := by decide
  simp only [Outline.declares, Bool.and_eq_true, decide_eq_true_eq] at h
  rw [Token.decides, h.1.1.1]
  exact hwords t.text (List.contains_iff_mem.1 h.1.1.2)

/-- A code token is charged as a decision, or nothing is. -/
theorem charges_code (t : Token) :
    Charges (if t.decides then 1 else 0) s.ledger (s.code t).ledger := by
  have hbegin : Charges 0 s.ledger (s.enter t).ledger := by
    unfold enter
    split
    · exact charges_closeFrom { s with statements := s.statements + 1 } s.depth
    · exact .rfl
  rw [code_eq]
  generalize s.enter t = s' at hbegin ⊢
  rw [← Nat.zero_add (if t.decides then 1 else 0)]
  apply hbegin.trans
  rw [ledger_consume]
  cases hdeclares : s'.outline.declares t with
  | true =>
    have hclose := charges_closeFrom s' s'.depth
    rw [decides_of_declares s' hdeclares, if_neg Bool.false_ne_true, if_pos rfl]
    split
    · exact hclose.trans (charges_openFunction _)
    · exact hclose
  | false =>
    rw [if_neg Bool.false_ne_true]
    split
    · exact charges_countDecision s'
    split
    · exact charges_closeFrom { s' with frames := s'.frames.tail } _
    · exact .rfl

/-- Only code moves the ledger. -/
theorem ledger_step {item : Item} (h : codeTokens [item] = []) :
    (s.step item).ledger = s.ledger := by
  obtain ⟨hidden, documented, hstep⟩ := s.exists_step_eq h
  rw [hstep]
  rfl

/-- Over some items the decisions among them are charged. -/
theorem charges_foldl (items : List Item) :
    Charges ((codeTokens items).countP Token.decides) s.ledger (items.foldl step s).ledger := by
  induction items generalizing s with
  | nil => exact .rfl
  | cons item items ih =>
    rw [List.foldl_cons, ← List.singleton_append, codeTokens_append, List.countP_append]
    refine Charges.trans ?_ (ih (s.step item))
    rcases item.eq_code_or_codeTokens_eq_nil with ⟨t, rfl⟩ | hitem
    · have hcount : (codeTokens [.code t]).countP Token.decides = if t.decides then 1 else 0 :=
        List.countP_singleton
      rw [hcount]
      exact charges_code s t
    · rw [hitem, ledger_step s hitem]
      exact .rfl

theorem openFunctions_closeFrom_zero : (s.closeFrom 0).openFunctions = [] := by
  simp [closeFrom_eq, endFunctionsFrom_eq]

theorem sum_eq_of_positive {complexities : List Nat} (h : ∀ c ∈ complexities, 1 ≤ c) :
    complexities.sum = (complexities.map (· - 1)).sum + complexities.length := by
  induction complexities with
  | nil => rfl
  | cons c complexities ih =>
    obtain ⟨hc, hrest⟩ := List.forall_mem_cons.1 h
    rw [List.sum_cons, ih hrest, List.map_cons, List.sum_cons, List.length_cons]
    omega

/-- At the end every function has ended, and its complexity is one more than its decisions. -/
theorem metrics_of_accounted (h : s.ledger.Accounted) :
    s.metrics.functions = s.metrics.functionComplexities.length ∧
      (∀ c ∈ s.metrics.functionComplexities, 1 ≤ c) ∧
      s.metrics.functionComplexities.sum + s.outside = s.metrics.functions + s.ledger.charged ∧
      s.metrics.complexity = s.metrics.functionComplexities.sum + s.outside := by
  have hclose := charges_closeFrom s 0
  obtain ⟨hfunctions, hpositive⟩ := hclose.accounted h
  have hcharged := hclose.charged
  have hopen := openFunctions_closeFrom_zero s
  have houtside : (s.closeFrom 0).outside = s.outside := rfl
  simp only [ledger, Ledger.charged, hopen, List.map_nil, List.sum_nil, List.length_nil]
    at hfunctions hpositive hcharged
  have hsum := sum_eq_of_positive hpositive
  refine ⟨?_, ?_, ?_, ?_⟩
  · simpa [metrics] using hfunctions
  · simpa [metrics] using hpositive
  · simp only [metrics, List.sum_reverse, ledger, Ledger.charged]
    omega
  · simp only [metrics, houtside, List.sum_reverse, ← List.sum_eq_foldr]

end Charges

theorem accounted_after (items : List Item) : (after items).ledger.Accounted :=
  (charges_foldl {} items).accounted ⟨rfl, nofun⟩

/-- What has been charged is the number of the decisions among the items. -/
theorem charged_after (items : List Item) :
    (after items).ledger.charged = (codeTokens items).countP Token.decides := by
  have hcharged : (after items).ledger.charged = _ := (charges_foldl {} items).charged
  rw [hcharged]
  exact Nat.zero_add _

end Scan
end SourceGauge.Scala
