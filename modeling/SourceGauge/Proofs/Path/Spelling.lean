import Mathlib
import SourceGauge.Proofs.Path.Components
import SourceGauge.Proofs.Path.Normal

/-! Paths that are written from components. Written and read again, the components of a normal form
are the same. -/
namespace SourceGauge

/-- The component is read back from its own characters, which are one piece of a path. -/
def Component.IsStep (c : Component) : Prop :=
  '/' ∉ c.chars ∧ Component.ofSegment? c.chars = some c

theorem Component.isStep_of_ofSegment? {piece : List Char} {c : Component} (hpiece : '/' ∉ piece)
    (h : Component.ofSegment? piece = some c) : c.IsStep := by
  have hread := h
  unfold Component.ofSegment? at h
  split at h
  · cases h
  · cases h
  · obtain rfl := Option.some.inj h
    exact ⟨hpiece, rfl⟩
  · obtain rfl := Option.some.inj h
    exact ⟨hpiece, hread⟩

theorem Component.IsStep.ne_root {c : Component} (h : c.IsStep) : c ≠ .root := by
  rintro rfl
  exact h.1 List.mem_cons_self

theorem Component.IsStep.chars_ne_nil {c : Component} (h : c.IsStep) : c.chars ≠ [] := by
  intro heq
  have hread := h.2
  rw [heq] at hread
  cases hread

namespace Path

theorem not_mem_of_mem_segments {cs : List Char} : ∀ piece ∈ segments cs, '/' ∉ piece := by
  induction cs with
  | nil => simp [segments]
  | cons c cs ih =>
    rw [segments]
    split
    · exact List.forall_mem_cons.2 ⟨List.not_mem_nil, ih⟩
    case isFalse hc =>
      obtain ⟨first, more, hpieces⟩ := List.exists_cons_of_ne_nil (segments_ne_nil cs)
      rw [hpieces] at ih ⊢
      obtain ⟨hfirst, hmore⟩ := List.forall_mem_cons.1 ih
      exact List.forall_mem_cons.2
        ⟨List.not_mem_cons_of_ne_of_not_mem (Ne.symm hc) hfirst, hmore⟩

theorem segments_of_not_mem {cs : List Char} (h : '/' ∉ cs) : segments cs = [cs] := by
  induction cs with
  | nil => rfl
  | cons c cs ih =>
    rw [List.mem_cons, not_or] at h
    rw [segments, if_neg (Ne.symm h.1), ih h.2]

theorem joinSegments_cons_cons (piece next : List Char) (more : List (List Char)) :
    joinSegments (piece :: next :: more) = piece ++ '/' :: joinSegments (next :: more) := by
  simp [joinSegments, List.intercalate, List.intersperse]

theorem segments_joinSegments {pieces : List (List Char)} (hne : pieces ≠ [])
    (h : ∀ piece ∈ pieces, '/' ∉ piece) : segments (joinSegments pieces) = pieces := by
  induction pieces with
  | nil => exact absurd rfl hne
  | cons piece pieces ih =>
    obtain ⟨hpiece, hpieces⟩ := List.forall_mem_cons.1 h
    cases pieces with
    | nil => simpa [joinSegments] using segments_of_not_mem hpiece
    | cons next more =>
      rw [joinSegments_cons_cons, segments_append_slash, segments_of_not_mem hpiece,
        ih (by simp) hpieces]
      rfl

theorem exists_joinSegments_cons (piece : List Char) (more : List (List Char)) :
    ∃ rest, joinSegments (piece :: more) = piece ++ rest := by
  cases more with
  | nil => exact ⟨[], by simp [joinSegments]⟩
  | cons next more =>
    exact ⟨'/' :: joinSegments (next :: more), joinSegments_cons_cons piece next more⟩

theorem not_mem_of_mem_split (p : Path) : ∀ piece ∈ p.split.2, '/' ∉ piece := by
  unfold split
  split
  · exact not_mem_of_mem_segments
  · have hpieces : ∀ piece ∈ segments p.chars, '/' ∉ piece := not_mem_of_mem_segments
    split
    case h_1 more hmore =>
      rw [hmore] at hpieces
      exact (List.forall_mem_cons.1 hpieces).2
    case h_2 => exact hpieces

theorem front_cases (p : Path) {c : Component} (h : p.split.1 = some c) :
    c = .root ∨ c = .current := by
  unfold split at h
  split at h
  · exact .inl (Option.some.inj h).symm
  split at h
  · exact .inr (Option.some.inj h).symm
  · cases h

/-- After the front of a path come names and steps up. -/
theorem isStep_of_mem_body {p : Path} {c : Component}
    (h : c ∈ p.split.2.filterMap Component.ofSegment?) : c.IsStep := by
  obtain ⟨piece, hpiece, hc⟩ := List.mem_filterMap.1 h
  exact Component.isStep_of_ofSegment? (not_mem_of_mem_split p piece hpiece) hc

theorem cases_of_mem_components {p : Path} {c : Component} (h : c ∈ p.components) :
    c = .root ∨ c = .current ∨ c.IsStep := by
  rcases List.mem_append.1 h with hfront | hbody
  · exact (front_cases p (Option.mem_toList.1 hfront)).imp_right .inl
  · exact .inr (.inr (isStep_of_mem_body hbody))

theorem root_not_mem_tail_components (p : Path) : .root ∉ p.components.tail := by
  have hbody : .root ∉ p.split.2.filterMap Component.ofSegment? :=
    fun h => (isStep_of_mem_body h).ne_root rfl
  unfold components
  cases p.split.1 with
  | none => exact fun h => hbody (List.mem_of_mem_tail h)
  | some c => exact hbody

section Written
variable {cs : List Component}

theorem filterMap_ofSegment?_chars (h : ∀ c ∈ cs, c.IsStep) :
    (cs.map Component.chars).filterMap Component.ofSegment? = cs := by
  rw [List.filterMap_map]
  calc
    cs.filterMap (Component.ofSegment? ∘ Component.chars) = cs.filterMap some :=
      List.filterMap_congr fun c hc => (h c hc).2
    _ = cs := List.filterMap_some

theorem segments_chars (hne : cs ≠ []) (h : ∀ c ∈ cs, c.IsStep) :
    segments (joinSegments (cs.map Component.chars)) = cs.map Component.chars := by
  refine segments_joinSegments (by simpa using hne) fun piece hpiece => ?_
  obtain ⟨c, hc, rfl⟩ := List.mem_map.1 hpiece
  exact (h c hc).1

theorem steps_chars (h : ∀ c ∈ cs, c.IsStep) :
    steps (joinSegments (cs.map Component.chars)) = cs := by
  by_cases hne : cs = []
  · subst hne
    rfl
  · rw [steps, segments_chars hne h, filterMap_ofSegment?_chars h]

theorem components_ofComponents_absolute (h : ∀ c ∈ cs, c.IsStep) :
    (ofComponents (.root :: cs)).components = .root :: cs :=
  congrArg (List.cons Component.root) (steps_chars h)

theorem components_ofComponents_relative (h : ∀ c ∈ cs, c.IsStep) :
    (ofComponents cs).components = cs := by
  cases cs with
  | nil => rfl
  | cons c cs =>
    have hc := h c List.mem_cons_self
    have hsegments := segments_chars (List.cons_ne_nil c cs) h
    have hwritten : ofComponents (c :: cs) =
        ⟨joinSegments ((c :: cs).map Component.chars)⟩ := by
      unfold ofComponents
      split
      case h_1 heq => exact (hc.ne_root (List.cons.inj heq).1).elim
      case h_2 => rfl
    have hhead : (joinSegments ((c :: cs).map Component.chars)).head? ≠ some '/' := by
      obtain ⟨d, ds, hchars⟩ := List.exists_cons_of_ne_nil hc.chars_ne_nil
      have hd : d ≠ '/' := by
        rintro rfl
        exact hc.1 (hchars ▸ List.mem_cons_self)
      obtain ⟨rest, hrest⟩ := exists_joinSegments_cons c.chars (cs.map Component.chars)
      rw [List.map_cons, hrest, hchars]
      simpa using hd
    have hpoint : c.chars ≠ ['.'] := by
      intro heq
      have hread := hc.2
      rw [heq] at hread
      cases hread
    rw [hwritten, components_of_segments hhead hsegments, if_neg hpoint]
    exact filterMap_ofSegment?_chars h

theorem components_ofComponents (hcs : IsNormal cs)
    (h : ∀ c ∈ cs, c = .root ∨ c = .current ∨ c.IsStep) : (ofComponents cs).components = cs := by
  cases hcs with
  | absolute names =>
    refine components_ofComponents_absolute fun c hc => ?_
    have hcases := h c (List.mem_cons_of_mem _ hc)
    obtain ⟨name, -, rfl⟩ := List.mem_map.1 hc
    simpa using hcases
  | relative ups names =>
    refine components_ofComponents_relative fun c hc => ?_
    have hcases := h c hc
    rcases List.mem_append.1 hc with hc | hc
    · obtain rfl := List.eq_of_mem_replicate hc
      simpa using hcases
    · obtain ⟨name, -, rfl⟩ := List.mem_map.1 hc
      simpa using hcases

end Written

/-- Below a base that is not empty, a relative path adds its steps. -/
theorem components_join {base p : Path} (hbase : base.chars ≠ []) (hp : p.isAbsolute = false) :
    (base.join p).components = base.components ++ steps p.chars := by
  unfold join
  rw [if_neg (by simp [hp, hbase])]
  split
  case isTrue hlast =>
    obtain ⟨front, hfront⟩ := List.getLast?_eq_some_iff.1 hlast
    obtain ⟨cs, hcs⟩ := exists_components_append_slash front
    obtain ⟨_⟩ := base
    subst hfront
    have hself : (Path.mk (front ++ ['/'])).components = cs := by
      rw [hcs []]
      exact List.append_nil cs
    rw [hself, List.append_assoc]
    exact hcs p.chars
  case isFalse => exact components_append_slash hbase p.chars

end Path
end SourceGauge
