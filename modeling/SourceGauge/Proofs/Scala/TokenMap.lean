import Mathlib
import SourceGauge.Scala.CodeMetrics

/-! Scans that run alike. What the code metrics see of a token list are the kinds of the tokens, the
texts of reserved words, operators and punctuation, and which tokens share a line. A map that keeps
these on a list commutes with every step of the scan over it, and so do counts that were made
before. -/
namespace SourceGauge.Scala

/-- The map keeps what the code metrics see of a token. -/
structure Token.Keeps (f : Token → Token) : Prop where
  kind (t : Token) : (f t).kind = t.kind
  text {t : Token} (h : t.kind = .keyword ∨ t.kind = .operator ∨ t.kind = .punct) :
    (f t).text = t.text
  line_eq (t u : Token) : (f t).start.line = (f u).stop.line ↔ t.start.line = u.stop.line
  line_lt (t u : Token) : (f t).stop.line < (f u).start.line ↔ t.stop.line < u.start.line

variable {f : Token → Token}

namespace Token

/-- The map keeps of this token what the code metrics see, its place apart. -/
structure Kept (f : Token → Token) (t : Token) : Prop where
  kind : (f t).kind = t.kind
  text (h : t.kind = .keyword ∨ t.kind = .operator ∨ t.kind = .punct) : (f t).text = t.text

/-- The second token follows on the same line, or on a later one, just when it does so once
mapped. -/
structure KeptLines (f : Token → Token) (t u : Token) : Prop where
  eq : (f u).start.line = (f t).stop.line ↔ u.start.line = t.stop.line
  lt : (f t).stop.line < (f u).start.line ↔ t.stop.line < u.start.line

/-- On the list the map keeps what the code metrics see. They look at the line of a token only from
a token behind it. -/
structure KeepsOn (f : Token → Token) (ts : List Token) : Prop where
  kept : ∀ t ∈ ts, t.Kept f
  lines : ts.Pairwise (KeptLines f)

theorem Keeps.kept (hf : Keeps f) (t : Token) : t.Kept f := ⟨hf.kind t, hf.text⟩

theorem Keeps.on (hf : Keeps f) (ts : List Token) : KeepsOn f ts where
  kept t _ := hf.kept t
  lines := List.pairwise_of_forall fun t u => ⟨hf.line_eq u t, hf.line_lt t u⟩

namespace KeepsOn
variable {t u : Token} {ts us : List Token}

theorem sublist (h : KeepsOn f ts) (hus : us.Sublist ts) : KeepsOn f us :=
  ⟨fun t ht => h.kept t (hus.subset ht), h.lines.sublist hus⟩

theorem tail (h : KeepsOn f (t :: ts)) : KeepsOn f ts := h.sublist (List.sublist_cons_self t ts)

theorem head (h : KeepsOn f (t :: ts)) : t.Kept f := h.kept t List.mem_cons_self

theorem headLines (h : KeepsOn f (t :: u :: ts)) : KeptLines f t u :=
  (List.pairwise_cons.1 h.lines).1 u List.mem_cons_self

end KeepsOn

namespace Kept
variable {t : Token} (h : t.Kept f)
include h

theorem isComment : (f t).isComment = t.isComment := by
  simp [Token.isComment, h.kind]

theorem isPunct (mark : String) : (f t).isPunct mark = t.isPunct mark := by
  by_cases hkind : t.kind = .punct
  · simp [Token.isPunct, h.kind, h.text (.inr (.inr hkind))]
  · simp [Token.isPunct, h.kind, hkind]

theorem isKeyword (word : String) : (f t).isKeyword word = t.isKeyword word := by
  by_cases hkind : t.kind = .keyword
  · simp [Token.isKeyword, h.kind, h.text (.inl hkind)]
  · simp [Token.isKeyword, h.kind, hkind]

theorem isName : Item.isName (f t) = Item.isName t := by
  simp [Item.isName, h.kind]

end Kept

end Token

open Token (KeepsOn)

namespace Item

/-- The item with every token in it mapped. -/
def map (f : Token → Token) : Item → Item
  | .comment t => .comment (f t)
  | .annot span => .annot (span.map f)
  | .modifier word qualifier => .modifier (f word) (qualifier.map f)
  | .typeCase t => .typeCase (f t)
  | .code t => .code (f t)

section Map
variable {ts : List Token}

theorem groupLength_map (opening closing : String) (outer : Nat) (h : KeepsOn f ts) :
    groupLength opening closing outer (ts.map f) = groupLength opening closing outer ts := by
  induction ts generalizing outer with
  | nil => rfl
  | cons t ts ih =>
    cases outer <;> simp only [List.map_cons, groupLength, h.head.isPunct, ih _ h.tail]

theorem argumentsLength_map {name : Token} (h : KeepsOn f (name :: ts)) :
    argumentsLength (f name) (ts.map f) = argumentsLength name ts := by
  cases ts with
  | nil => rfl
  | cons t ts =>
    simp [argumentsLength, groupLength_map _ _ _ h.tail.tail, h.tail.head.isPunct, h.headLines.eq]

theorem annotationTail_map {name : Token} (h : KeepsOn f (name :: ts)) :
    annotationTail (f name) (ts.map f) = annotationTail name ts := by
  induction name, ts using annotationTail.induct with
  | case1 name dot next rest hgo ih =>
    have hgo' : ((f dot).isPunct "." && isName (f next)) = true := by
      rwa [h.tail.head.isPunct, h.tail.tail.head.isName]
    rw [List.map_cons, List.map_cons, annotationTail, annotationTail, if_pos hgo, if_pos hgo',
      ih h.tail.tail]
  | case2 name dot next rest hstop =>
    have hstop' : ¬ ((f dot).isPunct "." && isName (f next)) = true := by
      rwa [h.tail.head.isPunct, h.tail.tail.head.isName]
    rw [List.map_cons, List.map_cons, annotationTail, annotationTail, if_neg hstop, if_neg hstop']
    exact argumentsLength_map h
  | case3 name rest hshort =>
    cases rest with
    | nil => rfl
    | cons dot rest =>
      cases rest with
      | nil => exact argumentsLength_map h
      | cons next rest => exact (hshort dot next rest rfl).elim

theorem annotationLength_map (h : KeepsOn f ts) :
    annotationLength (ts.map f) = annotationLength ts := by
  cases ts with
  | nil => rfl
  | cons name rest => simp [annotationLength, annotationTail_map h, h.head.isName]

theorem takeWhile_isComment_map (h : KeepsOn f ts) :
    ((ts.map f).takeWhile Token.isComment).length = (ts.takeWhile Token.isComment).length := by
  induction ts with
  | nil => rfl
  | cons t ts ih =>
    rw [List.map_cons, List.takeWhile_cons, List.takeWhile_cons, h.head.isComment]
    split
    · rw [List.length_cons, List.length_cons, ih h.tail]
    · rfl

theorem qualifierLength_map (h : KeepsOn f ts) :
    qualifierLength (ts.map f) = qualifierLength ts := by
  have hrest := h.sublist (List.drop_sublist (ts.takeWhile Token.isComment).length ts)
  rw [qualifierLength, qualifierLength, takeWhile_isComment_map h, ← List.map_drop]
  cases hinner : ts.drop (ts.takeWhile Token.isComment).length with
  | nil => rfl
  | cons t inner =>
    rw [hinner] at hrest
    simp [groupLength_map _ _ _ hrest.tail, hrest.head.isPunct]

theorem precedesType_map (h : KeepsOn f ts) : precedesType (ts.map f) = precedesType ts := by
  unfold precedesType
  induction ts with
  | nil => rfl
  | cons t ts ih =>
    rw [List.map_cons, List.find?_cons, List.find?_cons, h.head.isComment]
    split
    · simp [h.head.isKeyword]
    · exact ih h.tail

theorem isHiding_map {word : Token} (h : word.Kept f) (hword : word.kind = .keyword) :
    isHiding (f word) = isHiding word := by
  rw [isHiding, isHiding, h.text (.inl hword)]

theorem read_map {t : Token} (h : KeepsOn f (t :: ts)) :
    read (f t) (ts.map f) = ((read t ts).1.map f, (read t ts).2) := by
  have hmodifier : (t.kind = .keyword && modifiers.contains (f t).text) =
      (t.kind = .keyword && modifiers.contains t.text) := by
    by_cases hkind : t.kind = .keyword
    · rw [h.head.text (.inl hkind)]
    · simp [hkind]
  unfold read
  simp only [h.head.isComment, h.head.isPunct, h.head.kind, hmodifier, h.head.isKeyword,
    annotationLength_map h.tail, qualifierLength_map h.tail, precedesType_map h.tail]
  split
  · rfl
  split
  · simp [map]
  split
  case isTrue hword =>
    obtain ⟨hkind, -⟩ := Bool.and_eq_true_iff.1 hword
    simp [map, isHiding_map h.head (of_decide_eq_true hkind)]
  split <;> rfl

theorem ofTokens_map_on (h : KeepsOn f ts) : ofTokens (ts.map f) = (ofTokens ts).map (map f) := by
  induction ts using ofTokens.induct with
  | case1 => simp [ofTokens]
  | case2 t rest ih =>
    rw [List.map_cons, ofTokens, ofTokens, read_map h, List.map_cons, ← List.map_drop,
      ih (h.tail.sublist (List.drop_sublist _ rest))]

theorem ofTokens_map (hf : Token.Keeps f) (ts : List Token) :
    ofTokens (ts.map f) = (ofTokens ts).map (map f) :=
  ofTokens_map_on (hf.on ts)

end Map

/-- Only a reserved word is read as a modifier. -/
theorem kind_of_modifier {ts : List Token} {word : Token} {qualifier : List Token}
    (h : .modifier word qualifier ∈ ofTokens ts) : word.kind = .keyword := by
  induction ts using ofTokens.induct with
  | case1 => simp [ofTokens] at h
  | case2 t rest ih =>
    rw [ofTokens, List.mem_cons] at h
    rcases h with h | h
    · unfold read at h
      split at h
      · cases h
      split at h
      · cases h
      split at h
      case isTrue hword =>
        cases h
        simp_all
      split at h <;> cases h
    · exact ih h

end Item

namespace Scan

/-- The scan with its tokens mapped, and with the counts of `base` made before it. -/
def above (s base : Scan) (f : Token → Token) : Scan :=
  { s with
    types := base.types + s.types
    statements := base.statements + s.statements
    functions := base.functions + s.functions
    publicApi := base.publicApi + s.publicApi
    undocumented := base.undocumented + s.undocumented
    ended := s.ended ++ base.ended
    outside := base.outside + s.outside
    previous := s.previous.map f }

theorem endFunctionsFrom_append (depth : Nat) (functions : List OpenFunction)
    (ended before : List Nat) :
    endFunctionsFrom depth functions (ended ++ before) =
      ((endFunctionsFrom depth functions ended).1,
        (endFunctionsFrom depth functions ended).2 ++ before) := by
  induction functions generalizing ended with
  | nil => rfl
  | cons f functions ih =>
    rw [endFunctionsFrom, endFunctionsFrom]
    split
    · exact ih ((1 + f.decisions) :: ended)
    · rfl

section Step
variable (s base : Scan)

theorem closeFrom_above (depth : Nat) :
    (s.above base f).closeFrom depth = (s.closeFrom depth).above base f := by
  simp only [closeFrom, above, endFunctionsFrom_append]

theorem countDecision_above :
    (s.above base f).countDecision = s.countDecision.above base f := by
  cases h : s.openFunctions <;> simp [countDecision, above, h, Nat.add_assoc]

theorem punct_above (mark : String) :
    (s.above base f).punct mark = (s.punct mark).above base f := by
  unfold punct
  split
  · rfl
  split
  · rfl
  split
  · exact closeFrom_above { s with frames := s.frames.tail } base _
  · rfl

theorem operator_above (symbol : String) :
    (s.above base f).operator symbol = (s.operator symbol).above base f := by
  unfold operator
  split
  · exact s.countDecision_above base
  split
  · rw [apply_ite (above · base f)]
    rfl
  · rw [apply_ite (above · base f)]
    rfl

theorem countApi_above : (s.above base f).countApi = s.countApi.above base f := by
  have hpublic : (s.above base f).isPublic = s.isPublic := rfl
  rw [countApi, countApi, hpublic]
  cases s.isPublic with
  | false => rfl
  | true => cases hdoc : s.documented <;> simp [above, hdoc, Nat.add_assoc]

theorem declaration_above (word : String) :
    (s.above base f).declaration word = (s.declaration word).above base f := by
  have hparen : (s.above base f).inParen = s.inParen := rfl
  have hdepth : (s.above base f).depth = s.depth := rfl
  unfold declaration
  rw [hparen, hdepth, closeFrom_above, apply_ite (above · base f)]
  refine ite_congr rfl (fun _ => rfl) fun _ => ?_
  rw [← countApi_above]
  split
  · rfl
  split <;> rfl

theorem keyword_above (h : ∀ p ∈ s.previous, p.Kept f) (word : String) :
    (s.above base f).keyword word = (s.keyword word).above base f := by
  have hpoint : (s.above base f).previous.any (·.isPunct ".") = s.previous.any (·.isPunct ".") := by
    cases hprevious : s.previous with
    | none => simp [above, hprevious]
    | some p => simp [above, hprevious, (h p hprevious).isPunct]
  unfold keyword
  rw [hpoint]
  split
  · exact s.countDecision_above base
  split
  · rw [countDecision_above]
    rfl
  split
  · exact s.declaration_above base word
  · rfl

variable {t : Token}

theorem isContinuation_map (h : t.Kept f) : isContinuation (f t) = isContinuation t := by
  cases hkind : t.kind <;> simp [isContinuation, h.kind, h.text, hkind]

theorem canStartStatement_map (h : t.Kept f) : canStartStatement (f t) = canStartStatement t := by
  cases hkind : t.kind <;> simp [canStartStatement, h.kind, h.text, hkind]

theorem startsStatement_above (h : KeepsOn f (s.previous.toList ++ [t])) :
    (s.above base f).startsStatement (f t) = s.startsStatement t := by
  have ht : t.Kept f := h.kept t (by simp)
  have hboundary : (s.above base f).atBoundary (f t) = s.atBoundary t := by
    cases hprevious : s.previous with
    | none => simp [atBoundary, above, hprevious]
    | some p =>
      rw [hprevious] at h
      simp [atBoundary, above, hprevious, isContinuation_map h.head, h.head.isPunct, h.headLines.lt]
  rw [startsStatement, hboundary, canStartStatement_map ht]
  rfl

theorem endsPattern_above (h : t.Kept f) :
    (s.above base f).endsPattern (f t) = s.endsPattern t := by
  have hdepth : (s.above base f).depth = s.depth := rfl
  by_cases hkind : t.kind = .operator
  · simp only [endsPattern, h.kind, h.text (.inr (.inl hkind)), hdepth]
    rfl
  · simp [endsPattern, h.kind, hkind]

theorem code_above (h : KeepsOn f (s.previous.toList ++ [t])) :
    (s.above base f).code (f t) = (s.code t).above base f := by
  have ht : t.Kept f := h.kept t (by simp)
  have hstart : (if (s.above base f).startsStatement (f t) then (s.above base f).beginStatement
      else s.above base f) =
        (if s.startsStatement t then s.beginStatement else s).above base f := by
    rw [startsStatement_above s base h, apply_ite (above · base f)]
    refine ite_congr rfl (fun _ => ?_) fun _ => rfl
    exact closeFrom_above { s with statements := s.statements + 1 } base s.depth
  have hprevious : (if s.startsStatement t then s.beginStatement else s).previous = s.previous := by
    split <;> rfl
  unfold code
  simp only [hstart, ht.kind]
  generalize (if s.startsStatement t then s.beginStatement else s) = s' at hprevious ⊢
  rw [endsPattern_above s' base ht]
  split
  case h_1 hkind =>
    rw [ht.text (.inr (.inr hkind)), punct_above]
    rfl
  case h_2 hkind =>
    rw [ht.text (.inr (.inl hkind)), operator_above]
    rfl
  case h_3 hkind =>
    rw [ht.text (.inl hkind), keyword_above s' base fun p hp => h.kept p (by simp_all)]
    rfl
  case h_4 => rfl

/-- One step takes over what the code metrics see, and adds to the counts before it. -/
theorem step_above {item : Item} (h : KeepsOn f (s.previous.toList ++ item.tokens))
    (hword : ∀ word qualifier, item = .modifier word qualifier → word.kind = .keyword) :
    (s.above base f).step (item.map f) = (s.step item).above base f := by
  cases item with
  | comment t =>
    simp only [Item.map, step, (h.kept t (by simp [Item.tokens])).kind]
    rw [apply_ite (above · base f)]
    rfl
  | annot span => rfl
  | modifier word qualifier =>
    have hkept : word.Kept f := h.kept word (by simp [Item.tokens])
    simp only [Item.map, step, Item.isHiding_map hkept (hword word qualifier rfl)]
    rw [apply_ite (above · base f)]
    rfl
  | typeCase t => rfl
  | code t => exact s.code_above base h

/-- What a step remembers is the token before it or one of the item. -/
theorem previous_step_sublist (item : Item) :
    (s.step item).previous.toList.Sublist (s.previous.toList ++ item.tokens) := by
  cases item with
  | comment t =>
    rw [step, apply_ite previous, ite_self]
    exact List.sublist_append_left _ _
  | annot span => exact List.sublist_append_left _ _
  | modifier word qualifier =>
    rw [step, apply_ite previous, ite_self]
    exact List.sublist_append_left _ _
  | typeCase t => exact List.sublist_append_left _ _
  | code t => exact List.sublist_append_right _ _

theorem foldl_step_above_on {items : List Item}
    (h : KeepsOn f (s.previous.toList ++ items.flatMap Item.tokens))
    (hwords : ∀ word qualifier, .modifier word qualifier ∈ items → word.kind = .keyword) :
    (items.map (.map f)).foldl step (s.above base f) = (items.foldl step s).above base f := by
  induction items generalizing s with
  | nil => rfl
  | cons item items ih =>
    rw [List.flatMap_cons, ← List.append_assoc] at h
    have hitem : (s.above base f).step (item.map f) = (s.step item).above base f :=
      s.step_above base (h.sublist (List.sublist_append_left _ _)) fun word qualifier heq =>
        hwords word qualifier (heq ▸ List.mem_cons_self)
    rw [List.map_cons, List.foldl_cons, hitem, List.foldl_cons]
    exact ih _ (h.sublist ((s.previous_step_sublist item).append_right _))
      fun word qualifier hmem => hwords word qualifier (List.mem_cons_of_mem _ hmem)

theorem foldl_step_above (hf : Token.Keeps f) {items : List Item}
    (hwords : ∀ word qualifier, .modifier word qualifier ∈ items → word.kind = .keyword) :
    (items.map (.map f)).foldl step (s.above base f) = (items.foldl step s).above base f :=
  s.foldl_step_above_on base (hf.on _) hwords

end Step

end Scan

theorem Scan.closeFrom_of_openFunctions_eq_nil {s : Scan} (h : s.openFunctions = []) (depth : Nat) :
    s.closeFrom depth = s := by
  rw [closeFrom, h]
  simp [endFunctionsFrom, ← h]

/-- The metrics of two texts one after the other. -/
def CodeMetrics.append (first second : CodeMetrics) : CodeMetrics where
  types := first.types + second.types
  statements := first.statements + second.statements
  functions := first.functions + second.functions
  complexity := first.complexity + second.complexity
  functionComplexities := first.functionComplexities ++ second.functionComplexities
  publicApi := first.publicApi + second.publicApi
  undocumentedPublicApi := first.undocumentedPublicApi + second.undocumentedPublicApi

/-- When no function is open before them, counts made above others are added to them. -/
theorem Scan.metrics_above {s base : Scan} (h : base.openFunctions = []) :
    (s.above base f).metrics = base.metrics.append s.metrics := by
  rw [metrics, metrics, metrics, closeFrom_above, closeFrom_of_openFunctions_eq_nil h]
  simp only [above, CodeMetrics.append, ← List.sum_eq_foldr, List.sum_append, List.reverse_append,
    CodeMetrics.mk.injEq, true_and, and_true]
  omega

/-- The code metrics are those of what is seen of the tokens. -/
theorem codeMetrics_map_on {ts : List Token} (h : KeepsOn f ts) :
    CodeMetrics.ofTokens (ts.map f) = CodeMetrics.ofTokens ts := by
  have hrun : Scan.run (ts.map f) = (Scan.run ts).above {} f := by
    rw [Scan.run, Item.ofTokens_map_on h]
    refine Scan.foldl_step_above_on {} {} ?_ fun _ _ => Item.kind_of_modifier
    rwa [Item.flatMap_tokens_ofTokens]
  rw [CodeMetrics.ofTokens, hrun, Scan.metrics_above rfl]
  simp [CodeMetrics.append, Scan.metrics, Scan.closeFrom, Scan.endFunctionsFrom,
    CodeMetrics.ofTokens]

theorem codeMetrics_map (hf : Token.Keeps f) (ts : List Token) :
    CodeMetrics.ofTokens (ts.map f) = CodeMetrics.ofTokens ts :=
  codeMetrics_map_on (hf.on ts)

end SourceGauge.Scala
