import Mathlib
import SourceGauge.Proofs.Scala.OpenFunction

/-! The stack of open functions. Each function was opened further inside than the one below it, so
functions end innermost first and a decision belongs to the function that opened last. -/
namespace SourceGauge.Scala

/-- A decision point. -/
def Item.decides : Item → Bool
  | .code t => t.decides
  | _ => false

namespace Scan

/-- The number of open delimiters from which on functions end at an item. A statement and a
declaration end those that opened where they stand, a closing delimiter those that opened in its
group. -/
def endsFrom (s : Scan) : Item → Option Nat
  | .code t =>
    if s.startsStatement t || s.outline.declares t then some s.depth
    else if t.isClosing then some (s.depth - 1 + 1)
    else none
  | _ => none

/-- The item ends functions that opened at this number of open delimiters. -/
def ends (s : Scan) (item : Item) (depth : Nat) : Bool := (s.endsFrom item).any (· ≤ depth)

/-- A function opens with the item. -/
def opens (s : Scan) : Item → Bool
  | .code t => s.outline.declares t && t.text = "def"
  | _ => false

/-- A decision is charged to the innermost of some functions. -/
def charge : List OpenFunction → List OpenFunction
  | [] => []
  | f :: rest => { f with decisions := f.decisions + 1 } :: rest

/-- The functions are open at more and more delimiters, and none at more than are open now. -/
structure Stacked (s : Scan) : Prop where
  deeper : (s.openFunctions.map OpenFunction.depth).Pairwise (· > ·)
  bounded : ∀ f ∈ s.openFunctions, f.depth ≤ s.depth

section Step
variable (s : Scan) (t : Token) (item : Item)

theorem ledger_closeFrom_closeFrom (depth : Nat) :
    ((s.closeFrom depth).closeFrom depth).ledger = (s.closeFrom depth).ledger := by
  have hhead : ∀ f ∈ (s.openFunctions.dropWhile (depth ≤ ·.depth)).head?,
      decide (depth ≤ f.depth) = false := by
    intro f hf
    have := List.head?_dropWhile_not (fun f : OpenFunction => decide (depth ≤ f.depth))
      s.openFunctions
    rw [Option.mem_def.1 hf] at this
    simpa using this
  simp only [ledger, closeFrom_eq, endFunctionsFrom_eq]
  cases hopen : s.openFunctions.dropWhile (depth ≤ ·.depth) with
  | nil => simp
  | cons f rest =>
    rw [hopen] at hhead
    have hf := hhead f rfl
    rw [List.dropWhile_cons, List.takeWhile_cons, hf]
    rfl

theorem not_startsStatement_of_isClosing (h : t.isClosing = true) :
    s.startsStatement t = false := by
  have hstart : canStartStatement t = false := by
    simp only [Token.isClosing, delimiters, Token.isPunct, List.any_cons, List.any_nil,
      Bool.or_false, Bool.or_eq_true, Bool.and_eq_true, decide_eq_true_eq] at h
    rcases h with ⟨hkind, htext⟩ | ⟨hkind, htext⟩ | ⟨hkind, htext⟩ <;>
      simp [canStartStatement, hkind, htext]
  rw [startsStatement, hstart, Bool.and_false]

/-- The functions that end at an item are gone. -/
def endFunctions : Scan :=
  match s.endsFrom item with
  | none => s
  | some depth => s.closeFrom depth

section Congr
variable {x y : Scan}

theorem ledger_openFunction_congr (h : x.ledger = y.ledger) (hdepth : x.depth = y.depth) :
    x.openFunction.ledger = y.openFunction.ledger := by
  simp only [ledger, Ledger.mk.injEq] at h
  simp only [ledger, openFunction, h, hdepth]

theorem ledger_countDecision_congr (h : x.ledger = y.ledger) :
    x.countDecision.ledger = y.countDecision.ledger := by
  simp only [ledger, Ledger.mk.injEq] at h
  obtain ⟨hfunctions, hopen, hended, houtside⟩ := h
  simp only [countDecision, hopen]
  cases y.openFunctions <;> simp [ledger, hfunctions, hended, houtside]

end Congr

theorem ledger_enter :
    (s.enter t).ledger = (if s.startsStatement t then s.closeFrom s.depth else s).ledger := by
  unfold enter
  split <;> rfl

/-- What a code token does to the books: functions end, and then a function opens, a decision is
charged or neither. -/
theorem ledger_code :
    (s.code t).ledger =
      (if s.opens (.code t) then (s.endFunctions (.code t)).openFunction
        else if t.decides then (s.endFunctions (.code t)).countDecision
        else s.endFunctions (.code t)).ledger := by
  have hdepth : (s.enter t).depth = s.depth :=
    congrArg (fun o => o.frames.length) (outline_enter s t)
  rw [code_eq, ledger_consume, outline_enter]
  cases hdeclares : s.outline.declares t with
  | true =>
    have hfrom : s.endFunctions (.code t) = s.closeFrom s.depth := by
      simp [endFunctions, endsFrom, hdeclares]
    have hclose : ((s.enter t).closeFrom (s.enter t).depth).ledger =
        (s.closeFrom s.depth).ledger := by
      rw [hdepth]
      unfold enter
      split
      · exact ledger_closeFrom_closeFrom s s.depth
      · rfl
    rw [hfrom, opens, hdeclares, decides_of_declares s hdeclares, if_pos rfl]
    by_cases hdef : t.text = "def"
    · rw [if_pos hdef, if_pos (by simpa using hdef)]
      exact ledger_openFunction_congr hclose hdepth
    · rw [if_neg hdef, if_neg (by simpa using hdef), if_neg Bool.false_ne_true]
      exact hclose
  | false =>
    have hopens : s.opens (.code t) = false := by rw [opens, hdeclares, Bool.false_and]
    rw [hopens, if_neg Bool.false_ne_true, if_neg Bool.false_ne_true]
    cases hclosing : t.isClosing with
    | true =>
      have hstarts := s.not_startsStatement_of_isClosing t hclosing
      have hdecides : t.decides = false := by
        cases hkind : t.kind with
        | punct => simp [Token.decides, hkind]
        | _ =>
          simp [(Token.not_delimiter_of_kind (by simp [hkind] : t.kind ≠ .punct)).2] at hclosing
      have hfrom : s.endFunctions (.code t) = s.closeFrom (s.depth - 1 + 1) := by
        simp [endFunctions, endsFrom, hdeclares, hstarts, hclosing]
      have htail : s.frames.tail.length + 1 = s.depth - 1 + 1 := by rw [List.length_tail, depth]
      have henter : s.enter t = s := by rw [enter, hstarts]; rfl
      rw [hfrom, hdecides, if_neg Bool.false_ne_true, if_neg Bool.false_ne_true, if_pos rfl, henter,
        ← htail]
      rfl
    | false =>
      have hfrom : (s.enter t).ledger = (s.endFunctions (.code t)).ledger := by
        rw [ledger_enter]
        cases hstarts : s.startsStatement t <;>
          simp [endFunctions, endsFrom, hdeclares, hstarts, hclosing]
      rw [if_neg Bool.false_ne_true]
      split
      · exact ledger_countDecision_congr hfrom
      · exact hfrom

theorem ledger_step_eq :
    (s.step item).ledger =
      (if s.opens item then (s.endFunctions item).openFunction
        else if item.decides then (s.endFunctions item).countDecision
        else s.endFunctions item).ledger := by
  rcases item.eq_code_or_codeTokens_eq_nil with ⟨t, rfl⟩ | hitem
  · exact s.ledger_code t
  · rw [ledger_step s hitem]
    cases item with
    | code t => cases hitem
    | _ => rfl

/-- The functions that end at an item, innermost first. -/
def closed : List OpenFunction := s.openFunctions.takeWhile fun f => s.ends item f.depth

/-- The functions that outlast an item. -/
def kept : List OpenFunction := s.openFunctions.dropWhile fun f => s.ends item f.depth

theorem closed_append_kept : s.closed item ++ s.kept item = s.openFunctions :=
  List.takeWhile_append_dropWhile

theorem ledger_endFunctions :
    (s.endFunctions item).ledger =
      ⟨s.functions, s.kept item, ((s.closed item).map (1 + ·.decisions)).reverse ++ s.ended,
        s.outside⟩ := by
  unfold endFunctions closed kept ends
  cases s.endsFrom item with
  | none =>
    have hnone : s.openFunctions.takeWhile (fun _ => false) = [] := by
      cases s.openFunctions <;> rfl
    have hall : s.openFunctions.dropWhile (fun _ => false) = s.openFunctions := by
      cases s.openFunctions <;> rfl
    simp [hnone, hall, ledger]
  | some depth => simp [ledger, closeFrom_eq, endFunctionsFrom_eq]

theorem depth_endFunctions : (s.endFunctions item).depth = s.depth := by
  unfold endFunctions
  split <;> rfl

theorem decides_of_opens (h : s.opens item = true) : item.decides = false := by
  cases item with
  | code t =>
    rw [opens, Bool.and_eq_true] at h
    exact decides_of_declares s h.1
  | _ => cases h

/-- The stack after an item. -/
theorem openFunctions_step :
    (s.step item).openFunctions =
      if s.opens item then ⟨s.depth, 0⟩ :: s.kept item
      else if item.decides then charge (s.kept item)
      else s.kept item := by
  have hopen := congrArg Ledger.openFunctions (s.ledger_endFunctions item)
  refine (congrArg Ledger.openFunctions (s.ledger_step_eq item)).trans ?_
  simp only [ledger] at hopen ⊢
  split
  · simp [openFunction, hopen, depth_endFunctions]
  split
  · rw [← hopen, countDecision]
    cases (s.endFunctions item).openFunctions <;> rfl
  · exact hopen

theorem ended_step :
    (s.step item).ended = ((s.closed item).map (1 + ·.decisions)).reverse ++ s.ended := by
  refine (congrArg Ledger.ended (s.ledger_step_eq item)).trans ?_
  refine Eq.trans ?_ (congrArg Ledger.ended (s.ledger_endFunctions item))
  split
  · rfl
  split
  · rw [countDecision]
    split <;> rfl
  · rfl

theorem functions_step :
    (s.step item).functions = s.functions + if s.opens item then 1 else 0 := by
  have hfunctions := congrArg Ledger.functions (s.ledger_endFunctions item)
  refine (congrArg Ledger.functions (s.ledger_step_eq item)).trans ?_
  simp only [ledger] at hfunctions ⊢
  split
  case isTrue => exact congrArg (· + 1) hfunctions
  case isFalse =>
    split
    · rw [countDecision]
      split <;> exact hfunctions
    · exact hfunctions

/-- A decision is charged to the file when no function outlasts it. -/
theorem outside_step :
    (s.step item).outside =
      s.outside + if item.decides && (s.kept item).isEmpty then 1 else 0 := by
  have hopen := congrArg Ledger.openFunctions (s.ledger_endFunctions item)
  have houtside := congrArg Ledger.outside (s.ledger_endFunctions item)
  refine (congrArg Ledger.outside (s.ledger_step_eq item)).trans ?_
  simp only [ledger] at hopen houtside ⊢
  split
  case isTrue hopens => simp [s.decides_of_opens item hopens, openFunction, houtside]
  split
  case isTrue hdecides =>
    rw [← hopen, hdecides, countDecision]
    cases hlist : (s.endFunctions item).openFunctions <;> simp [houtside]
  case isFalse hdecides => simp [hdecides, houtside]

end Step

section Stacked
variable {s : Scan} {item : Item}

theorem ends_mono {m n : Nat} (hmn : m ≤ n) (h : s.ends item m = true) : s.ends item n = true := by
  obtain ⟨depth, hdepth, hle⟩ := (Option.any_eq_true _ _).1 h
  exact (Option.any_eq_true _ _).2 ⟨depth, hdepth, by simp at hle ⊢; omega⟩

/-- What an item ends it ends from the front of a list in which depths decrease. -/
theorem mem_dropWhile_ends {α : Type} {depth : α → Nat} {xs : List α}
    (h : (xs.map depth).Pairwise (· > ·)) {x : α} :
    x ∈ xs.dropWhile (fun x => s.ends item (depth x)) ↔
      x ∈ xs ∧ s.ends item (depth x) = false := by
  induction xs with
  | nil => simp
  | cons y xs ih =>
    rw [List.map_cons, List.pairwise_cons] at h
    rw [List.dropWhile_cons]
    cases hy : s.ends item (depth y) with
    | true =>
      rw [if_pos rfl, ih h.2, List.mem_cons]
      refine ⟨fun hx => ⟨.inr hx.1, hx.2⟩, ?_⟩
      rintro ⟨rfl | hx, hends⟩
      · rw [hy] at hends
        cases hends
      · exact ⟨hx, hends⟩
    | false =>
      rw [if_neg Bool.false_ne_true]
      refine ⟨fun hx => ⟨hx, ?_⟩, And.left⟩
      rcases List.mem_cons.1 hx with rfl | hx
      · exact hy
      · have hlt : depth x < depth y := h.1 _ (List.mem_map_of_mem hx)
        by_contra hends
        rw [ends_mono hlt.le (by simpa using hends)] at hy
        cases hy

theorem map_depth_charge (functions : List OpenFunction) :
    (charge functions).map OpenFunction.depth = functions.map OpenFunction.depth := by
  cases functions <;> rfl

/-- What outlasts an item was opened at no more delimiters than are open behind it, and outside of
a function that opens. -/
theorem Stacked.depth_le_of_mem_kept (h : s.Stacked) {f : OpenFunction} (hf : f ∈ s.kept item) :
    f.depth ≤ (s.step item).depth ∧ (s.opens item = true → f.depth < s.depth) := by
  obtain ⟨hopen, hends⟩ := (mem_dropWhile_ends h.deeper).1 hf
  have hbound := h.bounded f hopen
  rcases item.eq_code_or_codeTokens_eq_nil with ⟨t, rfl⟩ | hitem
  · rw [step, depth_code]
    simp only [ends, endsFrom, opens] at hends ⊢
    cases hdeclares : s.outline.declares t with
    | true =>
      rw [hdeclares, Bool.or_true, if_pos rfl] at hends
      have hlt : f.depth < s.depth := by simpa using hends
      exact ⟨by split_ifs <;> omega, fun _ => hlt⟩
    | false =>
      rw [hdeclares, Bool.or_false] at hends
      refine ⟨?_, by simp⟩
      split
      · omega
      split
      case isTrue hclosing =>
        rw [s.not_startsStatement_of_isClosing t hclosing, hclosing, if_neg Bool.false_ne_true,
          if_pos rfl] at hends
        have hlt : f.depth < s.depth - 1 + 1 := by simpa using hends
        omega
      case isFalse => exact hbound
  · obtain ⟨hidden, documented, hstep⟩ := s.exists_step_eq hitem
    rw [hstep]
    refine ⟨hbound, fun hopens => ?_⟩
    cases item with
    | code t => cases hitem
    | _ => cases hopens

theorem depth_step_of_opens (h : s.opens item = true) : (s.step item).depth = s.depth := by
  cases item with
  | code t =>
    rw [opens, Bool.and_eq_true, Outline.declares] at h
    have hkind : t.kind = .keyword := by
      simp only [Bool.and_eq_true, decide_eq_true_eq] at h
      exact h.1.1.1.1
    obtain ⟨hopening, hclosing⟩ := Token.not_delimiter_of_kind (t := t) (by simp [hkind])
    rw [step, depth_code, hopening, hclosing]
    rfl
  | _ => cases h

/-- An item keeps the stack in order. -/
theorem Stacked.step (h : s.Stacked) (item : Item) : (s.step item).Stacked := by
  have hkept : ((s.kept item).map OpenFunction.depth).Pairwise (· > ·) :=
    h.deeper.sublist ((List.dropWhile_sublist _).map _)
  have hle (f : OpenFunction) (hf : f ∈ s.kept item) := h.depth_le_of_mem_kept hf
  have hopen := s.openFunctions_step item
  constructor
  case deeper =>
    rw [hopen]
    split
    case isTrue hopens =>
      refine List.pairwise_cons.2 ⟨fun depth hdepth => ?_, hkept⟩
      obtain ⟨f, hf, rfl⟩ := List.mem_map.1 hdepth
      exact (hle f hf).2 hopens
    split
    · rwa [map_depth_charge]
    · exact hkept
  case bounded =>
    suffices hdepths : ∀ depth ∈ (s.step item).openFunctions.map OpenFunction.depth,
        depth ≤ (s.step item).depth from fun f hf => hdepths _ (List.mem_map_of_mem hf)
    have hold : ∀ depth ∈ (s.kept item).map OpenFunction.depth, depth ≤ (s.step item).depth := by
      intro depth hdepth
      obtain ⟨f, hf, rfl⟩ := List.mem_map.1 hdepth
      exact (hle f hf).1
    rw [hopen]
    split
    case isTrue hopens => exact List.forall_mem_cons.2 ⟨(depth_step_of_opens hopens).ge, hold⟩
    split
    · rwa [map_depth_charge]
    · exact hold

theorem stacked_after (items : List Item) : (after items).Stacked := by
  induction items using List.reverseRecOn with
  | nil => exact ⟨List.Pairwise.nil, nofun⟩
  | append_singleton items item ih =>
    rw [after, List.foldl_concat]
    exact ih.step item

end Stacked

end Scan
end SourceGauge.Scala
