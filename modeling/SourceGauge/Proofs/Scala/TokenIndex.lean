import Mathlib
import SourceGauge.Proofs.Scala.FunctionStack

/-! The scan as a loop over the indices of a token list. Every look at a token and every
subtraction can fail here. None does: the loop goes from item to item and comes to the end. -/
namespace SourceGauge.Scala.TokenIndex

/-- A token is looked at that is not there, or a count falls below zero. -/
inductive Fault
  | outOfRange
  | belowZero
  deriving DecidableEq, Repr

def tokenAt (tokens : List Token) (i : Nat) : Except Fault Token :=
  match tokens[i]? with
  | some t => .ok t
  | none => .error .outOfRange

def pred : Nat → Except Fault Nat
  | 0 => .error .belowZero
  | n + 1 => .ok n

section Loops
variable (tokens : List Token)

/-- The first index from `i` on at which no comment stands. -/
def nextCode (i : Nat) : Except Fault (Option Nat) :=
  if i < tokens.length then do
    let t ← tokenAt tokens i
    if t.isComment then nextCode (i + 1) else return some i
  else return none
termination_by tokens.length - i

/-- The next token behind `i`, comments aside, is `class` or `object`. -/
def nextIsType (i : Nat) : Except Fault Bool := do
  match ← nextCode tokens (i + 1) with
  | none => return false
  | some n =>
    let t ← tokenAt tokens n
    return t.isKeyword "class" || t.isKeyword "object"

/-- The index behind a group, read from `i` on with `depth` such groups open. -/
def skipGroup (opening closing : String) (depth i : Nat) : Except Fault Nat :=
  if i < tokens.length then do
    let t ← tokenAt tokens i
    if t.isPunct opening then skipGroup opening closing (depth + 1) (i + 1)
    else if t.isPunct closing then
      let depth ← pred depth
      if depth = 0 then return i + 1 else skipGroup opening closing depth (i + 1)
    else skipGroup opening closing depth (i + 1)
  else return tokens.length
termination_by tokens.length - i

def isNameAt (i : Nat) : Except Fault Bool :=
  if i < tokens.length then do
    let t ← tokenAt tokens i
    return Item.isName t
  else return false

/-- Passes over further parts of a name, each behind a point. -/
def skipParts (i : Nat) : Except Fault Nat :=
  if i + 1 < tokens.length then do
    let t ← tokenAt tokens i
    if t.isPunct "." then
      if ← isNameAt tokens (i + 1) then skipParts (i + 2) else return i
    else return i
  else return i
termination_by tokens.length - i

/-- Passes over an argument list that begins on the line where the token before `i` ends. -/
def skipArguments (i : Nat) : Except Fault Nat :=
  if i < tokens.length then do
    let t ← tokenAt tokens i
    if t.isPunct "(" then
      let last ← tokenAt tokens (← pred i)
      if t.start.line = last.stop.line then skipGroup tokens "(" ")" 0 i else return i
    else return i
  else return i

/-- The index behind an annotation whose at sign stands at `i`. -/
def skipAnnot (i : Nat) : Except Fault Nat := do
  if ← isNameAt tokens (i + 1) then skipArguments tokens (← skipParts tokens (i + 2))
  else return i + 1

/-- The index behind a modifier at `i`, and behind its qualifier if it can have one. -/
def skipModifier (word : Token) (i : Nat) : Except Fault Nat := do
  match ← nextCode tokens (i + 1) with
  | none => return i + 1
  | some n =>
    if Item.isHiding word then
      let t ← tokenAt tokens n
      if t.isPunct "[" then skipGroup tokens "[" "]" 0 n else return i + 1
    else return i + 1

/-- Takes the token at `i`, and gives the index of the next one to look at. -/
def step (s : Scan) (i : Nat) : Except Fault (Scan × Nat) := do
  let t ← tokenAt tokens i
  if t.isComment then
    return (if t.kind = .comment .doc then { s with documented := true } else s, i + 1)
  else if t.isPunct "@" then return (s, ← skipAnnot tokens i)
  else if t.kind = .keyword && Item.modifiers.contains t.text then
    return (if Item.isHiding t then { s with hidden := true } else s, ← skipModifier tokens t i)
  else if ← (if t.isKeyword "case" then nextIsType tokens i else pure false) then
    return (s, i + 1)
  else return (s.code t, i + 1)

/-- At most `count` steps from an index on, and the state behind the last token if it is reached. -/
def run : Nat → Scan → Nat → Except Fault (Option Scan)
  | 0, s, i => return if i < tokens.length then none else some s
  | count + 1, s, i =>
    if i < tokens.length then do
      let after ← step tokens s i
      run count after.1 after.2
    else return some s

end Loops

section Suffix
variable {front rest comments : List Token} {t : Token}

theorem ok_bind {α β : Type} (a : α) (f : α → Except Fault β) : (Except.ok a >>= f) = f a := rfl

theorem tokenAt_length (front : List Token) (t : Token) (rest : List Token) :
    tokenAt (front ++ t :: rest) front.length = .ok t := by simp [tokenAt]

theorem append_cons_eq (front : List Token) (t : Token) (rest : List Token) :
    front ++ t :: rest = (front ++ [t]) ++ rest := by simp

theorem length_concat (front : List Token) (t : Token) : (front ++ [t]).length = front.length + 1 :=
  List.length_append

theorem nextCode_eq (hcomments : ∀ c ∈ comments, c.isComment = true)
    (hrest : ∀ t ∈ rest.head?, t.isComment = false) (front : List Token) :
    nextCode (front ++ (comments ++ rest)) front.length =
      .ok (if rest.isEmpty then none else some (front.length + comments.length)) := by
  induction comments generalizing front with
  | nil =>
    rw [List.nil_append, nextCode]
    cases rest with
    | nil => rw [if_neg (by simp)]; rfl
    | cons t rest =>
      rw [if_pos (by simp), tokenAt_length, ok_bind, hrest t rfl]
      rfl
  | cons c comments ih =>
    obtain ⟨hc, hcomments⟩ := List.forall_mem_cons.1 hcomments
    have hnext := ih hcomments (front ++ [c])
    rw [← append_cons_eq, length_concat] at hnext
    rw [nextCode, List.cons_append, if_pos (by simp), tokenAt_length, ok_bind, if_pos hc, hnext,
      List.length_cons, Nat.add_assoc, Nat.add_comm 1]

/-- In front of the first code token stand comments. -/
theorem exists_comments (ts : List Token) : ∃ comments rest, ts = comments ++ rest ∧
    (∀ c ∈ comments, c.isComment = true) ∧ ∀ t ∈ rest.head?, t.isComment = false := by
  refine ⟨_, _, List.takeWhile_append_dropWhile.symm, fun c hc => List.mem_takeWhile_imp hc, ?_⟩
  intro t ht
  have := List.head?_dropWhile_not Token.isComment ts
  rw [Option.mem_def.1 ht] at this
  simpa using this

theorem qualifierLength_comments (hcomments : ∀ c ∈ comments, c.isComment = true)
    (hrest : ∀ t ∈ rest.head?, t.isComment = false) :
    Item.qualifierLength (comments ++ rest) =
      match rest with
      | [] => 0
      | t :: inner =>
        if t.isPunct "[" then comments.length + 1 + Item.groupLength "[" "]" 0 inner else 0 := by
  have htake : (comments ++ rest).takeWhile Token.isComment = comments := by
    rw [List.takeWhile_append_of_pos hcomments]
    cases rest with
    | nil => simp
    | cons t rest => simp [hrest t rfl]
  rw [Item.qualifierLength, htake, List.drop_left]
  cases rest <;> rfl

theorem precedesType_comments (hcomments : ∀ c ∈ comments, c.isComment = true)
    (hrest : ∀ t ∈ rest.head?, t.isComment = false) :
    Item.precedesType (comments ++ rest) =
      rest.head?.any fun t => t.isKeyword "class" || t.isKeyword "object" := by
  have hnone : comments.find? (!·.isComment) = none := by simpa using hcomments
  rw [Item.precedesType, List.find?_append, hnone, Option.none_or]
  cases rest with
  | nil => rfl
  | cons t rest => simp [hrest t rfl]

/-- A group is read to its end, or to the end of the tokens, and no closing mark is one too many. -/
theorem skipGroup_eq (opening closing : String) (outer : Nat) (front rest : List Token) :
    skipGroup (front ++ rest) opening closing (outer + 1) front.length =
      .ok (front.length + Item.groupLength opening closing outer rest) := by
  induction rest generalizing front outer with
  | nil =>
    rw [skipGroup, if_neg (by simp), List.append_nil]
    rfl
  | cons t rest ih =>
    have hnext (outer : Nat) :
        skipGroup (front ++ t :: rest) opening closing (outer + 1) (front.length + 1) =
          .ok (front.length + (1 + Item.groupLength opening closing outer rest)) := by
      rw [append_cons_eq, ← length_concat front t, ih, length_concat, Nat.add_assoc]
    rw [skipGroup, if_pos (by simp), tokenAt_length, ok_bind, Item.groupLength.eq_def]
    dsimp only
    split
    · exact hnext (outer + 1)
    split
    · cases outer with
      | zero => rfl
      | succ outer => exact hnext outer
    · exact hnext outer

theorem skipGroup_opening {opening : String} (ht : t.isPunct opening = true) (closing : String)
    (front rest : List Token) :
    skipGroup (front ++ t :: rest) opening closing 0 front.length =
      .ok (front.length + 1 + Item.groupLength opening closing 0 rest) := by
  rw [skipGroup, if_pos (by simp), tokenAt_length, ok_bind, if_pos ht, append_cons_eq,
    ← length_concat front t, skipGroup_eq]

theorem isNameAt_eq (front rest : List Token) :
    isNameAt (front ++ rest) front.length = .ok (rest.head?.any Item.isName) := by
  rw [isNameAt]
  cases rest with
  | nil => rw [if_neg (by simp)]; rfl
  | cons t rest => rw [if_pos (by simp), tokenAt_length]; rfl

theorem skipArguments_eq (front : List Token) (name : Token) (rest : List Token) :
    skipArguments (front ++ name :: rest) (front.length + 1) =
      .ok (front.length + 1 + Item.argumentsLength name rest) := by
  rw [skipArguments]
  cases rest with
  | nil => rw [if_neg (by simp)]; rfl
  | cons t rest =>
    have htoken : tokenAt (front ++ name :: t :: rest) (front.length + 1) = .ok t := by
      rw [append_cons_eq, ← length_concat front name, tokenAt_length]
    have hgroup (ht : t.isPunct "(" = true) :
        skipGroup (front ++ name :: t :: rest) "(" ")" 0 (front.length + 1) =
          .ok (front.length + 1 + (1 + Item.groupLength "(" ")" 0 rest)) := by
      rw [append_cons_eq, ← length_concat front name, skipGroup_opening ht, Nat.add_assoc]
    rw [if_pos (by simp), htoken, ok_bind, Item.argumentsLength]
    cases ht : t.isPunct "(" with
    | true =>
      rw [if_pos rfl, pred, ok_bind, tokenAt_length, ok_bind, hgroup ht, Bool.true_and]
      by_cases hline : t.start.line = name.stop.line
      · rw [if_pos hline, if_pos (by simpa using hline)]
      · rw [if_neg hline, if_neg (by simpa using hline)]
        rfl
    | false => rfl

/-- Behind a part of a name stand further parts, and the arguments behind the last one. -/
theorem skipParts_bind_skipArguments (front : List Token) (name : Token) (rest : List Token) :
    (skipParts (front ++ name :: rest) (front.length + 1) >>=
        skipArguments (front ++ name :: rest)) =
      .ok (front.length + 1 + Item.annotationTail name rest) := by
  induction hn : rest.length using Nat.strongRecOn generalizing front name rest with
  | ind n ih =>
    rw [skipParts]
    match rest with
    | [] =>
      rw [if_neg (by simp)]
      exact skipArguments_eq front name []
    | [t] =>
      rw [if_neg (by simp)]
      exact skipArguments_eq front name [t]
    | dot :: next :: rest =>
      have hdot : tokenAt (front ++ name :: dot :: next :: rest) (front.length + 1) = .ok dot := by
        rw [append_cons_eq, ← length_concat front name, tokenAt_length]
      have hname : isNameAt (front ++ name :: dot :: next :: rest) (front.length + 1 + 1) =
          .ok (Item.isName next) := by
        rw [append_cons_eq, append_cons_eq, ← length_concat front name,
          ← length_concat _ dot, isNameAt_eq]
        rfl
      have hlt : front.length + 1 + 1 < (front ++ name :: dot :: next :: rest).length := by
        simp only [List.length_append, List.length_cons]
        omega
      rw [if_pos hlt, hdot, ok_bind, Item.annotationTail]
      cases hpoint : dot.isPunct "." with
      | false => exact skipArguments_eq front name (dot :: next :: rest)
      | true =>
        rw [if_pos rfl, hname, ok_bind, Bool.true_and]
        cases Item.isName next with
        | false => exact skipArguments_eq front name (dot :: next :: rest)
        | true =>
          have hshort : rest.length < n := by
            rw [← hn, List.length_cons, List.length_cons]
            omega
          have hnext := ih rest.length hshort (front ++ [name] ++ [dot]) next rest rfl
          rw [← append_cons_eq, ← append_cons_eq, length_concat, length_concat] at hnext
          rw [if_pos rfl, if_pos rfl, hnext]
          exact congrArg _ (by omega)

theorem skipAnnot_eq (front : List Token) (mark : Token) (rest : List Token) :
    skipAnnot (front ++ mark :: rest) front.length =
      .ok (front.length + 1 + Item.annotationLength rest) := by
  have hname : isNameAt (front ++ mark :: rest) (front.length + 1) =
      .ok (rest.head?.any Item.isName) := by
    rw [append_cons_eq, ← length_concat front mark, isNameAt_eq]
  rw [skipAnnot, hname, ok_bind]
  cases rest with
  | nil => rfl
  | cons name rest =>
    rw [List.head?_cons, Option.any_some, Item.annotationLength]
    cases Item.isName name with
    | false => rfl
    | true =>
      have htail := skipParts_bind_skipArguments (front ++ [mark]) name rest
      rw [← append_cons_eq, length_concat] at htail
      rw [if_pos rfl, if_pos rfl, htail, Nat.add_assoc]

theorem nextIsType_eq (front : List Token) (t : Token) (rest : List Token) :
    nextIsType (front ++ t :: rest) front.length = .ok (Item.precedesType rest) := by
  obtain ⟨comments, rest, rfl, hcomments, hrest⟩ := exists_comments rest
  have hnext := nextCode_eq hcomments hrest (front ++ [t])
  rw [← append_cons_eq, length_concat] at hnext
  rw [nextIsType, hnext, ok_bind, precedesType_comments hcomments hrest]
  cases rest with
  | nil => rfl
  | cons next rest =>
    have htoken : tokenAt (front ++ t :: (comments ++ next :: rest))
        (front.length + 1 + comments.length) = .ok next := by
      rw [append_cons_eq, ← List.append_assoc, ← length_concat front t, ← List.length_append,
        tokenAt_length]
    simp only [List.isEmpty_cons, Bool.false_eq_true, if_false, htoken, ok_bind]
    rfl

theorem skipModifier_eq (front : List Token) (word : Token) (rest : List Token) :
    skipModifier (front ++ word :: rest) word front.length =
      .ok (front.length + 1 +
        if Item.isHiding word then Item.qualifierLength rest else 0) := by
  obtain ⟨comments, rest, rfl, hcomments, hrest⟩ := exists_comments rest
  have hnext := nextCode_eq hcomments hrest (front ++ [word])
  rw [← append_cons_eq, length_concat] at hnext
  rw [skipModifier, hnext, ok_bind, qualifierLength_comments hcomments hrest]
  cases rest with
  | nil =>
    rw [ite_self]
    rfl
  | cons next rest =>
    have hsplit : front ++ word :: (comments ++ next :: rest) =
        front ++ [word] ++ comments ++ next :: rest := by simp
    have hindex : front.length + 1 + comments.length = (front ++ [word] ++ comments).length := by
      rw [List.length_append, length_concat]
    simp only [List.isEmpty_cons, Bool.false_eq_true, if_false]
    rw [hsplit, hindex, tokenAt_length, ok_bind]
    cases Item.isHiding word with
    | false => rfl
    | true =>
      rw [if_pos rfl, if_pos rfl]
      split
      case isTrue hopening =>
        rw [skipGroup_opening hopening, ← hindex]
        exact congrArg _ (by omega)
      case isFalse => rfl

/-- One step takes the item that begins at the index, and goes on behind it. -/
theorem step_eq (s : Scan) (front : List Token) (t : Token) (rest : List Token) :
    step (front ++ t :: rest) s front.length =
      .ok (s.step (Item.read t rest).1, front.length + 1 + (Item.read t rest).2) := by
  rw [step, tokenAt_length, ok_bind, Item.read]
  split
  · rfl
  split
  · rw [skipAnnot_eq]
    rfl
  split
  · rw [skipModifier_eq]
    rfl
  · rw [nextIsType_eq]
    cases hclause : t.isKeyword "case" with
    | false => rfl
    | true => cases Item.precedesType rest <;> rfl

end Suffix

theorem groupLength_le_length (opening closing : String) (outer : Nat) (ts : List Token) :
    Item.groupLength opening closing outer ts ≤ ts.length := by
  rcases Item.groupLength_append_cases opening closing outer ts [] with hle | ⟨inside, heq⟩
  · rwa [List.append_nil] at hle
  · rw [List.append_nil] at heq
    exact Nat.le_of_eq heq

/-- An item ends in the token list. -/
theorem read_snd_le_length (t : Token) (rest : List Token) :
    (Item.read t rest).2 ≤ rest.length := by
  have hhalts : Item.Halts [] := ⟨⟨nofun, nofun, rfl⟩, nofun⟩
  have hstops := Item.read_stopsOrOpens hhalts t rest
  rw [List.append_nil] at hstops
  rcases hstops with hle | ⟨d, -, outside, opening, inside, rfl, -, hlength⟩
  · exact hle
  · have := groupLength_le_length d.1 d.2 0 inside
    rw [List.append_nil] at hlength
    rw [List.length_append, List.length_cons]
    omega

/-- The loop goes through the items, and it is behind the last one after no more steps than there
are tokens. -/
theorem run_eq {count : Nat} {rest : List Token} (hcount : rest.length ≤ count) (s : Scan)
    (front : List Token) :
    run (front ++ rest) count s front.length =
      .ok (some ((Item.ofTokens rest).foldl Scan.step s)) := by
  induction count generalizing rest s front with
  | zero =>
    obtain rfl := List.eq_nil_of_length_eq_zero (Nat.le_zero.1 hcount)
    rw [run, if_neg (by simp), Item.ofTokens]
    rfl
  | succ count ih =>
    cases rest with
    | nil =>
      rw [run, if_neg (by simp), Item.ofTokens]
      rfl
    | cons t rest =>
      have hle := read_snd_le_length t rest
      generalize hread : Item.read t rest = item at hle
      have hsplit : front ++ t :: rest =
          front ++ t :: rest.take item.2 ++ rest.drop item.2 := by
        rw [List.append_assoc, List.cons_append, List.take_append_drop]
      have hindex : (front ++ t :: rest.take item.2).length = front.length + 1 + item.2 := by
        rw [List.length_append, List.length_cons, List.length_take_of_le hle]
        omega
      have hshort : (rest.drop item.2).length ≤ count := by
        rw [List.length_drop]
        rw [List.length_cons] at hcount
        omega
      have hnext := ih hshort (s.step item.1) (front ++ t :: rest.take item.2)
      rw [← hsplit, hindex] at hnext
      rw [run, if_pos (by simp), step_eq, hread, ok_bind, hnext, Item.ofTokens, hread,
        List.foldl_cons]

section Counts

theorem length_ofTokens_le (tokens : List Token) :
    (Item.ofTokens tokens).length ≤ tokens.length := by
  fun_induction Item.ofTokens tokens with
  | case1 => exact Nat.le_refl _
  | case2 t rest ih =>
    rw [List.length_drop] at ih
    rw [List.length_cons, List.length_cons]
    omega

/-- An item opens a function or is a decision, and never both. -/
theorem functions_add_charged_le (items : List Item) :
    (Scan.after items).functions + (Scan.after items).ledger.charged ≤ items.length := by
  rw [Scan.charged_after]
  induction items using List.reverseRecOn with
  | nil => exact Nat.le_refl _
  | append_singleton items item ih =>
    have hfunctions := (Scan.after items).functions_step item
    have hdecides := (Scan.after items).decides_of_opens item
    have hcount : (codeTokens [item]).countP Token.decides = if item.decides then 1 else 0 := by
      rcases item.eq_code_or_codeTokens_eq_nil with ⟨t, rfl⟩ | hitem
      · exact List.countP_singleton
      · cases item with
        | code t => cases hitem
        | _ => rfl
    rw [Scan.after, List.foldl_concat, codeTokens_append, List.countP_append, hcount,
      List.length_append, List.length_singleton]
    rw [Scan.after] at hfunctions hdecides ih
    rw [hfunctions]
    cases hopens : (items.foldl Scan.step {}).opens item with
    | true =>
      rw [hdecides hopens]
      simp only [if_true, Bool.false_eq_true, if_false]
      omega
    | false =>
      cases item.decides <;> simp only [if_true, Bool.false_eq_true, if_false] <;> omega

/-- No function has more decisions than there are other tokens. -/
theorem functionComplexity_le_length (tokens : List Token) :
    ∀ c ∈ (CodeMetrics.ofTokens tokens).functionComplexities, c ≤ tokens.length := by
  intro c hc
  have haccounted := Scan.accounted_after (Item.ofTokens tokens)
  obtain ⟨-, -, hsum, -⟩ := Scan.metrics_of_accounted _ haccounted
  have hle := functions_add_charged_le (Item.ofTokens tokens)
  have hcharged : (CodeMetrics.ofTokens tokens).functionComplexities.sum ≤
      (Scan.after (Item.ofTokens tokens)).functions +
        (Scan.after (Item.ofTokens tokens)).ledger.charged := Nat.le_of_add_right_le hsum.le
  calc
    c ≤ (CodeMetrics.ofTokens tokens).functionComplexities.sum := List.le_sum_of_mem hc
    _ ≤ (Item.ofTokens tokens).length := hcharged.trans hle
    _ ≤ tokens.length := length_ofTokens_le tokens

end Counts

/-- From every index in range one step, in whatever state, leads further on and not past the end,
and nothing that it looks at is missing. A well-nested group is left behind its own closing mark. So
the loop ends after no more steps than there are tokens, its result is that of the scan, and the
complexity of a function is at most the number of tokens. -/
theorem scan_total (tokens : List Token) :
    (∀ s i, i < tokens.length →
      ∃ s' next, step tokens s i = .ok (s', next) ∧ i < next ∧ next ≤ tokens.length) ∧
    (∀ d ∈ delimiters, ∀ front opening inner closing rest,
      tokens = front ++ opening :: (inner ++ closing :: rest) → opening.isPunct d.1 = true →
      WellNested inner → closing.isPunct d.2 = true →
      skipGroup tokens d.1 d.2 0 front.length = .ok (front.length + 1 + inner.length + 1)) ∧
    (∀ count, tokens.length ≤ count →
      (run tokens count {} 0).map (Option.map Scan.metrics) =
        .ok (some (CodeMetrics.ofTokens tokens))) ∧
    ∀ c ∈ (CodeMetrics.ofTokens tokens).functionComplexities, c ≤ tokens.length := by
  refine ⟨fun s i hi => ?_, fun d hd front opening inner closing rest htokens hopening hinner
    hclosing => ?_, fun count hcount => ?_, functionComplexity_le_length tokens⟩
  · obtain ⟨front, t, rest, rfl, rfl⟩ :
        ∃ front t rest, tokens = front ++ t :: rest ∧ front.length = i :=
      ⟨tokens.take i, tokens[i], tokens.drop (i + 1), by simp, by simp; omega⟩
    have hle := read_snd_le_length t rest
    refine ⟨_, _, step_eq s front t rest, by omega, ?_⟩
    rw [List.length_append, List.length_cons]
    omega
  · rw [htokens, skipGroup_opening hopening, Item.groupLength_append hd hinner,
      Item.groupLength_of_closing hd hclosing]
    exact congrArg _ (by omega)
  · have hrun := run_eq hcount {} []
    rw [List.nil_append, List.length_nil] at hrun
    rw [hrun]
    rfl

end SourceGauge.Scala.TokenIndex
