import Mathlib
import SourceGauge.Proofs.Scala.Place

/-! Open groups along a list of tokens. A group that is open says which groups are open around it,
so two places with the same innermost group have all groups in common. That a list is well nested
can be computed from the marks that the open groups wait for. -/
namespace SourceGauge.Scala

section OpenGroups
variable {xs ys zs tokens : List Token} {g : OpenGroup}

/-- Around an open group the groups are open that were open where it begins. -/
theorem openGroups_before (upper : List OpenGroup) {lower : List OpenGroup}
    (h : openGroups tokens = upper ++ g :: lower) : openGroups g.before = lower := by
  induction tokens using List.reverseRecOn generalizing upper with
  | nil => simp [openGroups, openGroupsFrom] at h
  | append_singleton tokens t ih =>
    rw [openGroups_concat] at h
    split at h
    · cases upper with
      | nil =>
        obtain ⟨rfl, hlower⟩ := List.cons.inj h
        exact hlower
      | cons x upper => exact ih upper (List.cons.inj h).2
    split at h
    · cases hgroups : openGroups tokens with
      | nil => simp [hgroups] at h
      | cons x groups =>
        rw [hgroups, List.tail_cons] at h
        exact ih (x :: upper) (by rw [hgroups, h, List.cons_append])
    · exact ih upper h

theorem openGroups_eq_of_head? (h : (openGroups xs).head? = (openGroups ys).head?) :
    openGroups xs = openGroups ys := by
  cases hxs : openGroups xs with
  | nil =>
    rw [hxs] at h
    exact (List.head?_eq_none_iff.1 h.symm).symm
  | cons g lower =>
    rw [hxs] at h
    obtain ⟨lower', hys⟩ := List.head?_eq_some_iff.1 h.symm
    have hlower : openGroups g.before = lower := openGroups_before [] hxs
    have hlower' : openGroups g.before = lower' := openGroups_before [] hys
    rw [hys, ← hlower, hlower']

/-- A group that begins among the first tokens, and is open later, is open after them. -/
theorem mem_openGroups_of_append (h : g ∈ openGroups (xs ++ ys))
    (hbegins : g.before.length < xs.length) : g ∈ openGroups xs := by
  induction ys using List.reverseRecOn with
  | nil => rwa [List.append_nil] at h
  | append_singleton ys t ih =>
    rw [← List.append_assoc, openGroups_concat] at h
    split at h
    · rcases List.mem_cons.1 h with rfl | h
      · simp at hbegins
      · exact ih h
    split at h
    · exact ih (List.mem_of_mem_tail h)
    · exact ih h

/-- Between two places with the same open groups, no others are open at the same depth. -/
theorem openGroups_between (h : openGroups (xs ++ (ys ++ zs)) = openGroups xs)
    (hlength : (openGroups (xs ++ ys)).length = (openGroups xs).length) :
    openGroups (xs ++ ys) = openGroups xs := by
  cases hxs : openGroups xs with
  | nil =>
    rw [hxs] at hlength
    exact List.length_eq_zero_iff.1 hlength
  | cons g lower =>
    have hlower : openGroups g.before = lower := openGroups_before [] hxs
    have hmem : g ∈ openGroups (xs ++ ys) := by
      have hend : g ∈ openGroups (xs ++ ys ++ zs) := by
        rw [List.append_assoc, h, hxs]
        exact List.mem_cons_self
      apply mem_openGroups_of_append hend
      obtain ⟨rest, hrest⟩ := eq_append_of_mem_openGroups (hxs ▸ List.mem_cons_self)
      simp [hrest]
    obtain ⟨upper, lower', hsplit⟩ := List.append_of_mem hmem
    obtain rfl : lower = lower' := hlower.symm.trans (openGroups_before upper hsplit)
    rw [hsplit, hxs, List.length_append] at hlength
    obtain rfl : upper = [] := List.length_eq_zero_iff.1 (by omega)
    exact hsplit

/-- In a group that is closed later the group is open. -/
theorem openGroups_ne_nil {opening : Token} (hopening : opening.isOpening = true)
    (h : WellNested (xs ++ ys)) : openGroups (opening :: xs) ≠ [] := by
  have hopened : openGroups [opening] = [⟨[], opening⟩] := by
    simp [openGroups, openGroupsFrom, hopening]
  have hend : ⟨[], opening⟩ ∈ openGroups (opening :: xs ++ ys) := by
    have hsame := openGroups_append h [opening]
    rw [List.cons_append, ← List.singleton_append, hsame, hopened]
    exact List.mem_singleton_self _
  have hmem := mem_openGroups_of_append hend (Nat.zero_lt_succ _)
  exact List.ne_nil_of_mem hmem

end OpenGroups

/-- The groups that wait for the marks `awaited`, innermost first, are closed in this order, and so
is each further group. -/
def closesAll (awaited : List String) : List Token → Bool
  | [] => awaited.isEmpty
  | t :: rest =>
    match delimiters.find? (t.isPunct ·.1) with
    | some d => closesAll (d.2 :: awaited) rest
    | none =>
      if t.isClosing then
        match awaited with
        | [] => false
        | mark :: awaited => t.isPunct mark && closesAll awaited rest
      else closesAll awaited rest

section ClosesAll
variable {t : Token} {ts : List Token} {d : String × String}

theorem closesAll_token (ht : t.isOpening = false ∧ t.isClosing = false) (awaited : List String)
    (rest : List Token) : closesAll awaited (t :: rest) = closesAll awaited rest := by
  have hfind : delimiters.find? (t.isPunct ·.1) = none := by
    simpa [Token.isOpening] using ht.1
  simp only [closesAll, hfind, ht.2, Bool.false_eq_true, if_false]

theorem closesAll_opening (hd : d ∈ delimiters) (ht : t.isPunct d.1 = true)
    (awaited : List String) (rest : List Token) :
    closesAll awaited (t :: rest) = closesAll (d.2 :: awaited) rest := by
  have hsome : (delimiters.find? (t.isPunct ·.1)).isSome = true :=
    List.find?_isSome.2 ⟨d, hd, ht⟩
  obtain ⟨e, hfind⟩ := Option.isSome_iff_exists.1 hsome
  have hsame : d.1 = e.1 := by
    have he := List.find?_some hfind
    rw [Token.isPunct_of_isPunct ht] at he
    exact of_decide_eq_true he
  have hcloses := (delimiters_apart d hd e (List.mem_of_find?_eq_some hfind)).2.1 hsame
  simp only [closesAll, hfind, hcloses]

theorem closesAll_closing (hd : d ∈ delimiters) (ht : t.isPunct d.2 = true) (mark : String)
    (awaited : List String) (rest : List Token) :
    closesAll (mark :: awaited) (t :: rest) = (t.isPunct mark && closesAll awaited rest) := by
  obtain ⟨hcloses, hopens⟩ := Token.isClosing_of_isPunct hd ht
  have hfind : delimiters.find? (t.isPunct ·.1) = none := by
    simpa [Token.isOpening] using hopens
  simp only [closesAll, hfind, hcloses, if_true]

theorem WellNested.closesAll_append (h : WellNested ts) (awaited : List String)
    (rest : List Token) : closesAll awaited (ts ++ rest) = closesAll awaited rest := by
  induction h generalizing awaited rest with
  | nil => rfl
  | token hopening hclosing _ ih =>
    rw [List.cons_append, closesAll_token ⟨hopening, hclosing⟩, ih]
  | group hd hopening hclosing _ _ ihinner ihrest =>
    rw [List.cons_append, List.append_assoc, List.cons_append, closesAll_opening hd hopening,
      ihinner, closesAll_closing hd hclosing, hclosing, Bool.true_and, ihrest]

/-- The first part closes the group that waits for the mark, and the rest closes the others. -/
theorem exists_of_closesAll {awaited : List String} (h : closesAll awaited ts = true) :
    (awaited = [] → WellNested ts) ∧
      ∀ mark more, awaited = mark :: more → ∃ inner closing rest,
        ts = inner ++ closing :: rest ∧ WellNested inner ∧ closing.isPunct mark = true ∧
          closesAll more rest = true := by
  induction hlength : ts.length using Nat.strongRecOn generalizing ts awaited with
  | ind n ih =>
    cases ts with
    | nil =>
      obtain rfl : awaited = [] := List.isEmpty_iff.1 h
      exact ⟨fun _ => .nil, fun mark more hmark => absurd hmark.symm (List.cons_ne_nil mark more)⟩
    | cons t ts =>
      have hshort : ts.length < n := by
        rw [← hlength]
        exact Nat.lt_succ_self _
      by_cases hopening : t.isOpening = true
      · obtain ⟨d, hd, ht⟩ := List.any_eq_true.1 hopening
        rw [closesAll_opening hd ht] at h
        obtain ⟨inner, closing, rest, rfl, hinner, hclosing, hrest⟩ :=
          (ih _ hshort h rfl).2 d.2 awaited rfl
        have hless : rest.length < n := by
          rw [List.length_append, List.length_cons] at hshort
          omega
        obtain ⟨hend, hmore⟩ := ih _ hless hrest rfl
        refine ⟨fun hnil => .group hd ht hclosing hinner (hend hnil), fun mark more hmark => ?_⟩
        obtain ⟨inner', closing', rest', rfl, hinner', hclosing', hrest'⟩ := hmore mark more hmark
        refine ⟨t :: (inner ++ closing :: inner'), closing', rest', by simp, ?_, hclosing', hrest'⟩
        exact .group hd ht hclosing hinner hinner'
      by_cases hclosing : t.isClosing = true
      · obtain ⟨d, hd, ht⟩ := List.any_eq_true.1 hclosing
        cases awaited with
        | nil =>
          have hfind : delimiters.find? (t.isPunct ·.1) = none := by
            simpa [Token.isOpening] using hopening
          simp [closesAll, hfind, hclosing] at h
        | cons mark more =>
          rw [closesAll_closing hd ht, Bool.and_eq_true] at h
          refine ⟨fun hnil => absurd hnil (List.cons_ne_nil mark more),
            fun mark' more' hmark => ?_⟩
          obtain ⟨rfl, rfl⟩ := List.cons.inj hmark
          exact ⟨[], t, ts, rfl, .nil, h.1, h.2⟩
      · have ht : t.isOpening = false ∧ t.isClosing = false := by simp_all
        rw [closesAll_token ht] at h
        obtain ⟨hend, hmore⟩ := ih _ hshort h rfl
        refine ⟨fun hnil => (hend hnil).cons ht, fun mark more hmark => ?_⟩
        obtain ⟨inner, closing, rest, rfl, hinner, hclosing', hrest⟩ := hmore mark more hmark
        exact ⟨t :: inner, closing, rest, rfl, hinner.cons ht, hclosing', hrest⟩

theorem closesAll_nil_iff (ts : List Token) : closesAll [] ts = true ↔ WellNested ts := by
  constructor
  · intro h
    exact (exists_of_closesAll h).1 rfl
  · intro h
    rw [← List.append_nil ts, h.closesAll_append]
    rfl

instance (ts : List Token) : Decidable (WellNested ts) :=
  decidable_of_iff (closesAll [] ts = true) (closesAll_nil_iff ts)

end ClosesAll

end SourceGauge.Scala
