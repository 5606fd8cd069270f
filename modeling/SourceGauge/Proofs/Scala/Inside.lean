import Mathlib
import SourceGauge.Proofs.Scala.OpenFunction

/-! A function that stays open. On one line no statement begins outside all groups, so an unbraced
function there takes the decisions that follow it, whatever stands in groups. A group that is read
with no function open leaves none open. -/
namespace SourceGauge.Scala

namespace Scan

/-- A token that does nothing to a function outside all groups: there it declares nothing, and
neither ends a statement nor begins a case clause. -/
def Quiet (s : Scan) (t : Token) : Prop :=
  s.depth = 0 → s.outline.declares t = false ∧ t.isPunct ";" = false ∧ t.isKeyword "case" = false

/-- A function at the outermost level is open and has taken all decisions. Everything stands on line
`n`, so that no statement begins outside all groups. -/
structure Inside (n : Nat) (s : Scan) : Prop where
  opened : s.ledger.OutermostOpen
  outside : s.outside = 0
  pattern : s.patternDepth ≠ some 0
  last : ∃ p, s.previous = some p ∧ p.stop.line = n ∧
    (s.depth = 0 → p.isPunct ";" = false ∧ p.isPunct "\x7b" = false)
  arrow : s.depth = 0 → s.afterCaseArrow = false

theorem Inside.code {n : Nat} {s : Scan} (h : Inside n s) {t : Token}
    (hline : t.start.line = n ∧ t.stop.line = n) (hquiet : s.Quiet t) : Inside n (s.code t) := by
  obtain ⟨p, hprevious, hp, hlast⟩ := h.last
  have hstarts (hdepth : s.depth = 0) : s.startsStatement t = false := by
    simp [startsStatement, atBoundary, hprevious, hp, hline.1, hlast hdepth, h.arrow hdepth]
  obtain ⟨hopened, houtside⟩ :=
    outermostOpen_code h.opened fun hdepth => ⟨hstarts hdepth, (hquiet hdepth).1⟩
  have hdepth (hzero : (s.code t).depth = 0) (ht : t.isOpening = false ∧ t.isClosing = false) :
      s.depth = 0 := by
    rwa [depth_code, ht.1, ht.2] at hzero
  refine ⟨hopened, houtside.trans h.outside, ?_, ⟨t, rfl, hline.2, fun hzero => ⟨?_, ?_⟩⟩, ?_⟩
  · rw [patternDepth_code]
    split
    case isTrue hword =>
      intro hsome
      rw [(hquiet (Option.some.inj hsome)).2.2] at hword
      cases hword
    split
    · exact (Option.some_ne_none 0).symm
    · exact h.pattern
  · by_contra hsemicolon
    rw [Bool.not_eq_false] at hsemicolon
    have hhere := hdepth hzero (Token.not_delimiter_of_isPunct hsemicolon (by decide))
    rw [(hquiet hhere).2.1] at hsemicolon
    cases hsemicolon
  · by_contra hbrace
    rw [Bool.not_eq_false] at hbrace
    have hopening := Token.isOpening_of_isPunct (d := ("\x7b", "\x7d")) (by decide) hbrace
    rw [depth_code, hopening.1] at hzero
    cases hzero
  · intro hzero
    rw [afterCaseArrow_code]
    by_contra hends
    simp only [endsPattern, Bool.not_eq_false, Bool.and_eq_true, decide_eq_true_eq] at hends
    have hhere := hdepth hzero (Token.not_delimiter_of_kind (by simp [hends.1.1]))
    exact h.pattern (by rw [hends.2, hhere])

theorem Inside.foldl {n : Nat} {s : Scan} (h : Inside n s) {items : List Item}
    (hitems : Along Quiet items) (hframes : s.frames = [])
    (hline : ∀ t ∈ codeTokens items, t.start.line = n ∧ t.stop.line = n) :
    Inside n (items.foldl step s) := by
  refine (hitems.and hline).foldl (Inside n) hframes (fun s t hs ht => hs.code ht.2 ht.1) ?_ h
  intro s item hs hitem
  obtain ⟨hidden, documented, hstep⟩ := s.exists_step_eq hitem
  rw [hstep]
  exact ⟨hs.opened, hs.outside, hs.pattern, hs.last, hs.arrow⟩

theorem frames_foldl_of_wellNested {ts : List Token} (h : WellNested ts) {s : Scan}
    (hs : s.frames = []) : ((Item.ofTokens ts).foldl step s).frames = [] := by
  have hdepth := depth_foldl hs (Item.ofTokens ts)
  have hgroups : openGroups ts = [] := openGroups_append h []
  rw [length_openGroups_codeTokens (skipsWhole_ofTokens h.matched), Item.flatMap_tokens_ofTokens,
    hgroups] at hdepth
  exact List.length_eq_zero_iff.1 hdepth

theorem along_code {p : Scan → Token → Prop} {t : Token}
    (ht : t.isOpening = false ∧ t.isClosing = false) (h : ∀ s : Scan, s.frames = [] → p s t) :
    Along p [.code t] := by
  refine ⟨fun s hs => ?_, fun s hs before t' after hsplit => ?_⟩
  · have hdepth : (s.code t).depth = s.depth := by rw [depth_code, ht.1, ht.2]; rfl
    rw [depth, depth, hs] at hdepth
    exact List.length_eq_zero_iff.1 hdepth
  · cases before with
    | nil =>
      obtain ⟨heq, -⟩ := List.cons.inj hsplit
      obtain rfl := Item.code.inj heq
      exact h s hs
    | cons item before => simp at hsplit

theorem quiet_punct {t : Token} (ht : t.kind = .punct) (hmark : t.text ≠ ";") (s : Scan) :
    s.Quiet t := by
  intro _
  simp [Outline.declares, Token.isPunct, Token.isKeyword, ht, hmark]

end Scan

section Group
variable {d : String × String} {g : Group}

/-- A group is read on its own, and so is what stands in it. -/
theorem Group.IsOf.ofTokens_append (h : g.IsOf d) (hd : d ∈ delimiters) (rest : List Token) :
    Item.ofTokens (g.tokens ++ rest) =
      Item.code g.opening ::
        (Item.ofTokens g.inner ++ Item.code g.closing :: Item.ofTokens rest) := by
  have hopening := Token.isOpening_of_isPunct hd h.opening
  have hclosing := Token.isClosing_of_isPunct hd h.closing
  have hinner := (Item.ofTokens_append h.inner.matched.parensMatched
    (parts_closing hd h.closing g.inner rest)).1
  rw [Group.tokens, List.cons_append, List.append_assoc, List.singleton_append,
    Item.ofTokens_cons_of_read (Item.read_of_delimiter (by simp [hopening]) _), hinner,
    Item.ofTokens_cons_of_read (Item.read_of_delimiter (by simp [hclosing]) _)]

theorem Group.IsOf.ofTokens_tokens (h : g.IsOf d) (hd : d ∈ delimiters) :
    Item.ofTokens g.tokens =
      Item.code g.opening :: (Item.ofTokens g.inner ++ [Item.code g.closing]) := by
  have hitems := h.ofTokens_append hd []
  rw [List.append_nil] at hitems
  rw [hitems, Item.ofTokens]

/-- Behind its opening mark a group is open up to its closing mark. -/
theorem Group.IsOf.depth_ne_zero (h : g.IsOf d) (hd : d ∈ delimiters) {s : Scan}
    (hs : s.frames = []) {item : Item} {before : List Item} {t : Token} {after : List Item}
    (hsplit : Item.ofTokens g.tokens = item :: before ++ Item.code t :: after) :
    ((item :: before).foldl Scan.step s).depth ≠ 0 := by
  have hwhole : SkipsWhole (item :: before) := fun other hother =>
    skipsWhole_ofTokens (h.wellNested hd).matched other
      (hsplit ▸ List.mem_append_left _ hother)
  have hitem : item = .code g.opening := by
    rw [h.ofTokens_tokens hd] at hsplit
    exact (List.cons.inj hsplit).1.symm
  subst hitem
  have htokens := Item.flatMap_tokens_ofTokens g.tokens
  rw [hsplit, List.flatMap_append, List.flatMap_cons, List.flatMap_cons] at htokens
  have hinner : before.flatMap Item.tokens ++ t :: after.flatMap Item.tokens =
      g.inner ++ [g.closing] := (List.cons.inj htokens).2
  obtain ⟨ys, hys⟩ : ∃ ys, g.inner = before.flatMap Item.tokens ++ ys := by
    rcases concat_eq_split.1 hinner.symm with ⟨hbefore, -, -⟩ | ⟨ys, -, hys⟩
    · exact ⟨[], by rw [hbefore, List.append_nil]⟩
    · exact ⟨_, hys⟩
  have hopen : openGroups (g.opening :: before.flatMap Item.tokens) ≠ [] :=
    openGroups_ne_nil (Token.isOpening_of_isPunct hd h.opening).1 (hys ▸ h.inner)
  rw [Scan.depth_foldl hs, length_openGroups_codeTokens hwhole]
  exact mt List.length_eq_zero_iff.1 hopen

/-- What stands in a group is inside it. -/
theorem Group.IsOf.along_quiet (h : g.IsOf d) (hd : d ∈ delimiters) :
    Scan.Along Scan.Quiet (Item.ofTokens g.tokens) := by
  refine ⟨fun s hs => Scan.frames_foldl_of_wellNested (h.wellNested hd) hs,
    fun s hs before t after hsplit => ?_⟩
  cases before with
  | nil =>
    have hitem := hsplit
    rw [h.ofTokens_tokens hd] at hitem
    obtain rfl := Item.code.inj (List.cons.inj hitem).1
    obtain ⟨hkind, htext⟩ := Token.isPunct_iff.1 h.opening
    refine Scan.quiet_punct hkind (htext ▸ ?_) s
    exact (by decide : ∀ d ∈ delimiters, d.1 ≠ ";") d hd
  | cons item before => exact fun hzero => absurd hzero (h.depth_ne_zero hd hs hsplit)

/-- At the closing mark of a group every function ends that was opened in it. -/
theorem Group.IsOf.openFunctions_foldl (h : g.IsOf d) (hd : d ∈ delimiters) {s : Scan}
    (hs : s.frames = []) (hopen : s.openFunctions = []) :
    ((Item.ofTokens g.tokens).foldl Scan.step s).openFunctions = [] := by
  have halong := h.along_quiet hd
  have hcloses := halong.closes s hs
  rw [h.ofTokens_tokens hd, ← List.cons_append] at halong hcloses ⊢
  have hnone : ¬ ((Item.code g.opening :: Item.ofTokens g.inner).foldl
      Scan.step s).ledger.OutermostOpen := by
    refine halong.foldl_front (fun s' => ¬ s'.ledger.OutermostOpen) hs ?_ ?_ ?_
    · exact fun s' t hs' ht => Scan.not_outermostOpen_code hs' fun hzero => (ht hzero).1
    · intro s' item hs' hitem
      rwa [Scan.ledger_step s' hitem]
    · rintro ⟨f, hf, -⟩
      rw [Scan.ledger, hopen] at hf
      cases hf
  rw [List.foldl_concat] at hcloses ⊢
  generalize (Item.code g.opening :: Item.ofTokens g.inner).foldl Scan.step s = s' at *
  have hclosing := Token.isClosing_of_isPunct hd h.closing
  obtain ⟨hkind, htext⟩ := Token.isPunct_iff.1 h.closing
  have hbegin : s'.startsStatement g.closing = false := by
    have hmark : d.2 ≠ "(" := (by decide : ∀ d ∈ delimiters, d.2 ≠ "(") d hd
    simp [Scan.startsStatement, Scan.canStartStatement, hkind, htext, hmark]
  have hframes : s'.frames.tail = [] := by
    have hdepth : s'.depth - 1 = 0 := by
      have hzero : (s'.code g.closing).depth = 0 := congrArg List.length hcloses
      simpa [Scan.depth_code, hclosing] using hzero
    exact List.length_eq_zero_iff.1 (List.length_tail.trans hdepth)
  have hledger := s'.ledger_consume g.closing
  rw [(by simp [Scan.outline, Outline.declares, hkind] : s'.outline.declares g.closing = false),
    (by simp [Token.decides, hkind] : g.closing.decides = false), hclosing.1] at hledger
  have hclose : (s'.code g.closing).openFunctions =
      s'.openFunctions.dropWhile (s'.frames.tail.length + 1 ≤ ·.depth) := by
    rw [Scan.code_eq, Scan.enter, hbegin]
    exact (congrArg Ledger.openFunctions hledger).trans (Scan.openFunctions_closeFrom _ _)
  rw [Scan.step, hclose, hframes, List.dropWhile_eq_nil_iff]
  intro f hf
  have hdeep : f.depth ≠ 0 := fun hzero => hnone ⟨f, hf, hzero⟩
  simpa [Nat.one_le_iff_ne_zero] using hdeep

end Group

end SourceGauge.Scala
