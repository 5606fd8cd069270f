import Mathlib
import SourceGauge.Proofs.FileTree.Follow
import SourceGauge.Proofs.Path.Resolve

/-! Following paths in a file tree without symbolic links. A path is walked component by component,
and a walk does not lead elsewhere when its detours are left out, so the normal form of a path leads
where the path leads. -/
namespace SourceGauge
open Relation (ReflTransGen)

namespace FileTree

/-- No symbolic link stands in the tree. -/
def Linkless (t : FileTree) : Prop := ∀ place target, t.get? place ≠ some (.link target)

/-- The place that one step leads to. It sets out from a directory, except for the root. -/
def stepTo? (t : FileTree) (place : Place) : Component → Option Place
  | .root => some []
  | .current => if t.hasDirectory place then some place else none
  | .parent => if t.hasDirectory place then some place.dropLast else none
  | .name name =>
    if t.hasDirectory place && (t.get? (place ++ [name])).isSome then some (place ++ [name])
    else none

/-- The place that the components of a path lead to. -/
def walk? (t : FileTree) (place : Place) (cs : List Component) : Option Place :=
  cs.foldlM t.stepTo? place

/-- The step that one piece of a path stands for. A piece without a name stays where it is. -/
def stepOf (piece : List Char) : Component := (Component.ofSegment? piece).getD .current

section Walk
variable {t : FileTree} {place q : Place} {cs : List Component}

theorem walk?_cons (c : Component) : t.walk? place (c :: cs) =
    (t.stepTo? place c).bind fun next => t.walk? next cs := List.foldlM_cons

theorem walk?_append (xs ys : List Component) : t.walk? place (xs ++ ys) =
    (t.walk? place xs).bind fun next => t.walk? next ys := List.foldlM_append

theorem hasDirectory_of_stepTo? {c : Component} (hc : c ≠ .root) (h : t.stepTo? place c = some q) :
    t.hasDirectory place = true := by
  by_contra hplace
  cases c <;> simp [stepTo?, hplace] at h hc

theorem hasDirectory_of_walk? (hcs : .root ∉ cs) (hq : t.hasDirectory q = true)
    (h : t.walk? place cs = some q) : t.hasDirectory place = true := by
  cases cs with
  | nil =>
    obtain rfl : place = q := Option.some.inj h
    exact hq
  | cons c cs =>
    rw [walk?_cons, Option.bind_eq_some_iff] at h
    obtain ⟨next, hnext, -⟩ := h
    exact hasDirectory_of_stepTo? (fun hc => hcs (hc ▸ List.mem_cons_self)) hnext

/-- Points do not matter on the way to a directory. -/
theorem walk?_withoutPoints (hcs : .root ∉ cs) (hq : t.hasDirectory q = true) :
    t.walk? place cs = some q ↔ t.walk? place (cs.filter (· ≠ .current)) = some q := by
  induction cs generalizing place with
  | nil => rfl
  | cons c cs ih =>
    rw [List.mem_cons, not_or] at hcs
    by_cases hc : c = .current
    · subst hc
      have hkept : .root ∉ cs.filter (· ≠ .current) := fun h => hcs.2 (List.mem_of_mem_filter h)
      rw [walk?_cons, List.filter_cons_of_neg (by simp), ← ih hcs.2, stepTo?]
      split
      case isTrue => rfl
      case isFalse hplace =>
        refine iff_of_false (by simp) fun h => hplace ?_
        exact hasDirectory_of_walk? hcs.2 hq h
    · rw [List.filter_cons_of_pos (by simpa using hc), walk?_cons, walk?_cons]
      simp only [Option.bind_eq_some_iff, ih hcs.2]

/-- A detour that is left out makes no difference. -/
theorem walk?_of_shortens {ds : List Component} (h : Path.Shortens cs ds)
    (hcs : t.walk? place cs = some q) : t.walk? place ds = some q := by
  cases h with
  | point front back =>
    rw [walk?_append, Option.bind_eq_some_iff] at hcs ⊢
    obtain ⟨next, hfront, hback⟩ := hcs
    rw [walk?_cons, stepTo?] at hback
    split at hback
    · exact ⟨next, hfront, hback⟩
    · cases hback
  | stepUp front name back =>
    rw [walk?_append, Option.bind_eq_some_iff] at hcs ⊢
    obtain ⟨next, hfront, hback⟩ := hcs
    rw [walk?_cons, stepTo?] at hback
    split at hback
    · rw [Option.bind_some, walk?_cons, stepTo?] at hback
      split at hback
      · rw [Option.bind_some, List.dropLast_concat] at hback
        exact ⟨next, hfront, hback⟩
      · cases hback
    · cases hback

theorem walk?_of_reflTransGen {ds : List Component} (h : ReflTransGen Path.Shortens cs ds)
    (hcs : t.walk? place cs = some q) : t.walk? place ds = some q := by
  induction h with
  | refl => exact hcs
  | tail _ hstep ih => exact walk?_of_shortens hstep ih

end Walk

section Follow
variable {t : FileTree}

/-- Without links a path is followed piece by piece. -/
theorem follow?_eq_walk? (ht : t.Linkless) (links : Nat) (place : Place)
    (pieces : List (List Char)) :
    t.follow? links place pieces = t.walk? place (pieces.map stepOf) := by
  induction pieces generalizing place with
  | nil => rw [follow?]; rfl
  | cons piece pieces ih =>
    rw [follow?, List.map_cons, walk?_cons, stepOf]
    by_cases hplace : t.hasDirectory place = true
    · rcases ofSegment?_cases piece with hc | hc | ⟨name, hc⟩
      · simp [hc, stepTo?, hplace, ih]
      · simp [hc, stepTo?, hplace, ih]
      · cases hchild : t.get? (place ++ [name]) with
        | none => simp [hc, stepTo?, hchild]
        | some e =>
          cases e with
          | link target => exact absurd hchild (ht _ target)
          | _ => simp [hc, stepTo?, hplace, hchild, ih]
    · rcases ofSegment?_cases piece with hc | hc | ⟨name, hc⟩ <;>
        simp [hc, stepTo?, hplace]

theorem filterMap_ofSegment? (pieces : List (List Char)) :
    pieces.filterMap Component.ofSegment? = (pieces.map stepOf).filter (· ≠ .current) := by
  induction pieces with
  | nil => rfl
  | cons piece pieces ih =>
    rw [List.filterMap_cons, List.map_cons, List.filter_cons, ih, stepOf]
    rcases ofSegment?_cases piece with hc | hc | ⟨name, hc⟩ <;> simp [hc]

theorem root_not_mem_map_stepOf (pieces : List (List Char)) : .root ∉ pieces.map stepOf := by
  rw [List.mem_map]
  rintro ⟨piece, -, hroot⟩
  rw [stepOf] at hroot
  rcases ofSegment?_cases piece with hc | hc | ⟨name, hc⟩ <;> simp [hc] at hroot

/-- Without links a path leads to a directory exactly when walking its components does. -/
theorem locate?_eq_some_iff (ht : t.Linkless) {p : Path} (hp : p.chars ≠ []) {q : Place}
    (hq : t.hasDirectory q = true) :
    t.locate? p = some q ↔ t.walk? t.here p.components = some q := by
  rw [locate?, if_neg (by simpa using hp), follow?_eq_walk? ht,
    walk?_withoutPoints (root_not_mem_map_stepOf _) hq, ← filterMap_ofSegment?]
  obtain ⟨cs⟩ := p
  by_cases habsolute : cs.head? = some '/'
  · obtain ⟨rest, rfl⟩ := List.head?_eq_some_iff.1 habsolute
    rfl
  · obtain ⟨piece, more, hpieces⟩ := List.exists_cons_of_ne_nil (Path.segments_ne_nil cs)
    have hstart : start t.here ⟨cs⟩ = t.here := by simp [start, Path.isAbsolute, habsolute]
    rw [Path.components_of_segments habsolute hpieces, hpieces, hstart]
    split
    case isTrue hpoint =>
      subst hpoint
      have hroot : .root ∉ more.filterMap Component.ofSegment? := by
        rw [filterMap_ofSegment?]
        exact fun h => root_not_mem_map_stepOf more (List.mem_of_mem_filter h)
      have hpoint : .root ∉ .current :: more.filterMap Component.ofSegment? := by simpa using hroot
      have hsame : (['.'] :: more).filterMap Component.ofSegment? =
          more.filterMap Component.ofSegment? := rfl
      rw [hsame, walk?_withoutPoints hroot hq, walk?_withoutPoints hpoint hq,
        List.filter_cons_of_neg (by simp)]
    case isFalse => rfl

end Follow

/-- The normal form of a path to a directory leads to the same directory, unless nothing is left of
the path. Then it has led to the working directory. -/
theorem locate?_of_isNormalForm {t : FileTree} (ht : t.Linkless) {p out : Path}
    (h : p.IsNormalForm out) {q : Place} (hlocate : t.locate? p = some q)
    (hq : t.hasDirectory q = true) :
    (out.chars ≠ [] → t.locate? out = some q) ∧ (out.chars = [] → q = t.here) := by
  have hp := chars_ne_nil_of_locate? hlocate
  have hwalk : t.walk? t.here out.components = some q :=
    walk?_of_reflTransGen h.shorter ((locate?_eq_some_iff ht hp hq).1 hlocate)
  refine ⟨fun hout => (locate?_eq_some_iff ht hout hq).2 hwalk, fun hout => ?_⟩
  have hnone : out.components = [] := by
    obtain rfl : out = ⟨[]⟩ := congrArg Path.mk hout
    rfl
  rw [hnone] at hwalk
  exact (Option.some.inj hwalk).symm

/-- Below a directory, a relative path leads on from the place of the directory, however the
directory is spelled. -/
theorem locate?_join {t : FileTree} (ht : t.Linkless) {dir p : Path} {q : Place}
    (hlocate : t.locate? dir = some q) (hp : p.isAbsolute = false) :
    t.locate? (dir.join p) = t.walk? q ((Path.segments p.chars).map stepOf) := by
  obtain ⟨left, -, hleft⟩ := exists_left hlocate
  rw [hleft p hp, follow?_eq_walk? ht]

end FileTree
end SourceGauge
