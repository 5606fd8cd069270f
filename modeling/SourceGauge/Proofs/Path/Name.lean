import Mathlib
import SourceGauge.Proofs.Path.Spelling

/-! Paths of ordinary names, and how the last name of a path ends. Below a base, a path of names
adds its components to those of the base, however the base is spelled. -/
namespace SourceGauge.Path

/-- The path is a single name. -/
def IsName (p : Path) : Prop := (Component.name p.chars).IsStep

section IsName
variable {p : Path}

theorem IsName.head?_ne (h : p.IsName) : p.chars.head? ≠ some '/' :=
  fun hslash => h.1 (List.mem_of_head? hslash)

theorem IsName.isAbsolute (h : p.IsName) : p.isAbsolute = false := by
  simpa [Path.isAbsolute] using h.head?_ne

theorem IsName.segments (h : p.IsName) : segments p.chars = [p.chars] := segments_of_not_mem h.1

theorem IsName.steps (h : p.IsName) : steps p.chars = [.name p.chars] := by
  have hread : Component.ofSegment? p.chars = some (.name p.chars) := h.2
  rw [Path.steps, h.segments]
  simp [hread]

theorem IsName.components (h : p.IsName) : p.components = [.name p.chars] := by
  have hpoint : p.chars ≠ ['.'] := by
    intro hpoint
    have hread : Component.ofSegment? p.chars = some (.name p.chars) := h.2
    rw [hpoint] at hread
    cases hread
  rw [components_of_segments h.head?_ne h.segments, if_neg hpoint, ← h.segments]
  exact h.steps

theorem IsName.fileName? (h : p.IsName) : p.fileName? = some p.chars := by
  rw [Path.fileName?, h.components]
  rfl

end IsName

/-- The components of the path are names, one or more. -/
structure IsPlain (p : Path) : Prop where
  ne_nil : p.components ≠ []
  names : ∀ c ∈ p.components, isName c = true

theorem IsName.isPlain {p : Path} (h : p.IsName) : p.IsPlain where
  ne_nil := by
    rw [h.components]
    exact List.cons_ne_nil _ _
  names := by
    rw [h.components, List.forall_mem_singleton]
    rfl

section IsPlain
variable {base p q : Path}

theorem IsPlain.isAbsolute (h : p.IsPlain) : p.isAbsolute = false := by
  by_contra habsolute
  obtain ⟨rest, hrest⟩ : ∃ rest, p.chars = '/' :: rest := by
    simpa [Path.isAbsolute, List.head?_eq_some_iff] using habsolute
  have hroot : Component.root ∈ p.components := by
    rw [Path.components, split, hrest]
    exact List.mem_cons_self
  cases h.names _ hroot

theorem IsPlain.steps (h : p.IsPlain) : steps p.chars = p.components := by
  obtain ⟨piece, more, hpieces⟩ := List.exists_cons_of_ne_nil (segments_ne_nil p.chars)
  have hstart : p.chars.head? ≠ some '/' := by simpa [Path.isAbsolute] using h.isAbsolute
  have hcomponents := components_of_segments hstart hpieces
  split at hcomponents
  case isTrue =>
    have hcurrent : Component.current ∈ p.components := by
      rw [hcomponents]
      exact List.mem_cons_self
    cases h.names _ hcurrent
  case isFalse => rw [Path.steps, hpieces, hcomponents]

theorem IsPlain.components_join (h : p.IsPlain) (base : Path) :
    (base.join p).components = base.components ++ p.components := by
  by_cases hbase : base.chars = []
  · have hnone : base.components = [] := by
      obtain ⟨_⟩ := base
      subst hbase
      rfl
    rw [join, if_pos (by simp [hbase]), hnone, List.nil_append]
  · rw [Path.components_join hbase h.isAbsolute, h.steps]

theorem IsPlain.join (hbase : base.IsPlain) (h : p.IsPlain) : (base.join p).IsPlain where
  ne_nil := by
    rw [h.components_join]
    exact List.append_ne_nil_of_right_ne_nil _ h.ne_nil
  names := by
    rw [h.components_join]
    exact List.forall_mem_append.2 ⟨hbase.names, h.names⟩

theorem IsPlain.fileName?_join (h : p.IsPlain) (base : Path) :
    (base.join p).fileName? = p.fileName? := by
  rw [fileName?, fileName?, h.components_join, List.getLast?_append_of_ne_nil _ h.ne_nil]

theorem IsPlain.extension?_join (h : p.IsPlain) (base : Path) :
    (base.join p).extension? = p.extension? := by
  rw [extension?, extension?, h.fileName?_join]

/-- Joined with one base, paths that differ still differ. -/
theorem pairwise_join {rels : List Path} (hplain : ∀ p ∈ rels, p.IsPlain)
    (hdiffer : rels.Pairwise fun p q => p.components ≠ q.components) (base : Path) :
    (rels.map base.join).Pairwise fun p q => p.components ≠ q.components := by
  rw [List.pairwise_map]
  refine hdiffer.imp_of_mem fun {p q} hp hq hne => ?_
  rw [(hplain p hp).components_join, (hplain q hq).components_join]
  exact mt List.append_cancel_left hne

/-- A base is written in front of relative paths in one way. -/
theorem exists_join (base : Path) :
    ∃ front, ∀ p : Path, p.isAbsolute = false → base.join p = ⟨front ++ p.chars⟩ := by
  by_cases hbase : base.chars = []
  · refine ⟨[], fun p _ => ?_⟩
    rw [join, if_pos (by simp [hbase]), List.nil_append]
  by_cases hlast : base.chars.getLast? = some '/'
  · refine ⟨base.chars, fun p hp => ?_⟩
    rw [join, if_neg (by simp [hp, hbase]), if_pos hlast]
  · refine ⟨base.chars ++ ['/'], fun p hp => ?_⟩
    rw [join, if_neg (by simp [hp, hbase]), if_neg hlast, List.append_assoc, List.singleton_append]

/-- Going down by a name and then further is going down by both at once. -/
theorem IsName.join_join {name : Path} (hname : name.IsName) (hp : p.isAbsolute = false) :
    (base.join name).join p = base.join (name.join p) := by
  have hne : name.chars ≠ [] := hname.chars_ne_nil
  have hbelow (front : List Char) :
      (Path.mk (front ++ name.chars)).join p = ⟨front ++ (name.chars ++ '/' :: p.chars)⟩ := by
    have hlast : (front ++ name.chars).getLast? ≠ some '/' := by
      rw [List.getLast?_append_of_ne_nil _ hne]
      exact fun hslash => hname.1 (List.mem_of_getLast? hslash)
    rw [join, if_neg (by simp [hp, hne]), if_neg hlast, List.append_assoc]
  have hrelative : (Path.mk (name.chars ++ '/' :: p.chars)).isAbsolute = false := by
    rw [Path.isAbsolute, List.head?_append_of_ne_nil _ hne]
    exact hname.isAbsolute
  obtain ⟨front, hfront⟩ := exists_join base
  rw [hfront name hname.isAbsolute, hbelow front, ← hfront _ hrelative]
  exact congrArg base.join (hbelow []).symm

end IsPlain

/-- The name of a file ends in a point and `ending`, with something before them. -/
def EndsIn (ending name : List Char) : Prop := ∃ stem, stem ≠ [] ∧ name = stem ++ '.' :: ending

section Extension
variable {p : Path} {name ending : List Char}

theorem exists_last_point (h : '.' ∈ name) :
    ∃ stem ending, '.' ∉ ending ∧ name = stem ++ '.' :: ending := by
  obtain ⟨back, front, hreverse, hback⟩ := List.eq_append_cons_of_mem (List.mem_reverse.2 h)
  refine ⟨front.reverse, back.reverse, by simpa using hback, ?_⟩
  rw [← List.reverse_reverse name, hreverse]
  simp

/-- The extension is what follows the last point, if that is not the first character. -/
theorem extension?_of_last_point {stem : List Char} (hending : '.' ∉ ending)
    (hname : p.fileName? = some (stem ++ '.' :: ending)) :
    p.extension? = if stem = [] then none else some ending := by
  have hback : ((stem ++ '.' :: ending).reverse.takeWhile (· ≠ '.')).reverse = ending := by
    have hreverse : (stem ++ '.' :: ending).reverse = ending.reverse ++ '.' :: stem.reverse := by
      simp
    rw [hreverse, List.takeWhile_append_of_pos]
    · simp
    · intro c hc
      have hne : c ≠ '.' := fun heq => hending (heq ▸ List.mem_reverse.1 hc)
      simpa using hne
  have hlength : (stem ++ '.' :: ending).length = ending.length + 1 ↔ stem = [] := by
    rw [List.length_append, List.length_cons, ← List.length_eq_zero_iff]
    omega
  rw [extension?, hname]
  simp only [Option.bind_eq_bind, Option.bind_some, hback, hlength]
  simp

theorem extension?_eq_some_iff (hending : '.' ∉ ending) (hname : p.fileName? = some name) :
    p.extension? = some ending ↔ EndsIn ending name := by
  constructor
  · intro h
    by_cases hpoint : '.' ∈ name
    · obtain ⟨stem, last, hlast, rfl⟩ := exists_last_point hpoint
      rw [extension?_of_last_point hlast hname] at h
      split at h
      · cases h
      · next hstem => exact ⟨stem, hstem, by rw [Option.some.inj h]⟩
    · simp [extension?, hname, hpoint] at h
  · rintro ⟨stem, hstem, rfl⟩
    rw [extension?_of_last_point hending hname, if_neg hstem]

end Extension
end SourceGauge.Path
