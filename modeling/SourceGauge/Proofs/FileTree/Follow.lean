import Mathlib
import SourceGauge.FileTree.Basic
import SourceGauge.Proofs.Path.Components

/-! Following paths below a directory, links included. The way to the directory may take some of the
links that can be followed for one path. From there a path is followed with those that are left, so
an entry of the directory that is a link leads to what its target leads to. -/
namespace SourceGauge

theorem Entry.get?_append (e : Entry) (xs ys : Place) :
    e.get? (xs ++ ys) = (e.get? xs).bind fun child => child.get? ys := by
  induction xs generalizing e with
  | nil => rw [List.nil_append, Entry.get?, Option.bind_some]
  | cons name xs ih =>
    rw [List.cons_append, Entry.get?, Entry.get?, Option.bind_assoc]
    congr 1
    funext child
    exact ih child

theorem Entry.mem_of_lookup {entries : List (List Char × Entry)} {name : List Char} {child : Entry}
    (h : entries.lookup name = some child) : (name, child) ∈ entries := by
  obtain ⟨before, after, rfl, -⟩ := List.lookup_eq_some_iff.1 h
  exact List.mem_append_right _ List.mem_cons_self

theorem Entry.lookup_of_mem {entries : List (List Char × Entry)}
    (honce : (entries.map (·.1)).Nodup) {e : List Char × Entry} (he : e ∈ entries) :
    entries.lookup e.1 = some e.2 := by
  obtain ⟨before, after, rfl⟩ := List.append_of_mem he
  refine List.lookup_eq_some_iff.2 ⟨before, after, rfl, fun first hfirst => ?_⟩
  rw [List.map_append, List.nodup_append] at honce
  have hne := honce.2.2 first.1 (List.mem_map_of_mem hfirst) e.1 List.mem_cons_self
  simpa using Ne.symm hne

/-- The separator between a directory and what is below it is the last one of the directory, or it
is put there. The pieces before it are those of the directory, apart from an empty one at their
end. -/
theorem Path.exists_front {cs : List Char} (hcs : cs ≠ []) : ∃ front,
    (∀ p : Path, p.isAbsolute = false → Path.join ⟨cs⟩ p = ⟨front ++ '/' :: p.chars⟩ ∧
      ∃ more, front ++ '/' :: p.chars = cs ++ more) ∧
    (segments cs = segments front ∨ segments cs = segments front ++ [[]]) := by
  by_cases hlast : cs.getLast? = some '/'
  · obtain ⟨front, rfl⟩ := List.getLast?_eq_some_iff.1 hlast
    refine ⟨front, fun p hp => ⟨?_, p.chars, by simp⟩, .inr (segments_append_slash front [])⟩
    rw [join, if_neg (by simp [hp]), if_pos hlast]
    simp
  · refine ⟨cs, fun p hp => ⟨?_, '/' :: p.chars, rfl⟩, .inl rfl⟩
    rw [join, if_neg (by simp [hp, hcs]), if_neg hlast]

namespace FileTree

/-- What an entry of the directory at `place` leads to, where `links` links may be followed. -/
def target? (t : FileTree) (links : Nat) (place : Place) : Entry → Option Entry
  | .link target =>
    match links with
    | 0 => none
    | links + 1 =>
      (t.follow? links (start place target) (Path.segments target.chars)).bind t.get?
  | e => some e

/-- The first steps lead nowhere, whatever follows, or to a place from which the others are followed
with the links that are left. -/
def Splits (t : FileTree) (links : Nat) (place : Place) (first : List (List Char)) : Prop :=
  (∀ rest, t.follow? links place (first ++ rest) = none) ∨
    ∃ left ≤ links, ∃ q, ∀ rest, t.follow? links place (first ++ rest) = t.follow? left q rest

theorem ofSegment?_cases (piece : List Char) :
    Component.ofSegment? piece = none ∨ Component.ofSegment? piece = some .parent ∨
      ∃ name, Component.ofSegment? piece = some (.name name) := by
  unfold Component.ofSegment?
  split <;> simp

section Follow
variable {t : FileTree} {links : Nat} {place : Place} {steps : List (List Char)}

theorem Splits.of_eq {next : Nat} {q : Place} {others : List (List Char)} (hle : next ≤ links)
    (h : ∀ rest, t.follow? links place (steps ++ rest) = t.follow? next q (others ++ rest))
    (hothers : t.Splits next q others) : t.Splits links place steps := by
  rcases hothers with hnone | ⟨left, hleft, r, hr⟩
  · exact .inl fun rest => (h rest).trans (hnone rest)
  · exact .inr ⟨left, hleft.trans hle, r, fun rest => (h rest).trans (hr rest)⟩

theorem splits (t : FileTree) (links : Nat) (place : Place) (steps : List (List Char)) :
    t.Splits links place steps := by
  fun_induction follow? t links place steps with
  | case1 links place => exact .inr ⟨links, Nat.le_refl links, place, fun _ => rfl⟩
  | case2 place step steps hplace name hname target hentry =>
    exact .inl fun rest => by rw [List.cons_append, follow?]; simp [hplace, hname, hentry]
  | case3 place step steps hplace name hname target hentry links ih =>
    refine ih.of_eq (Nat.le_succ links) fun rest => ?_
    rw [List.cons_append, follow?]
    simp [hplace, hname, hentry]
  | case4 links place step steps hplace name hname e he hentry ih =>
    refine ih.of_eq (Nat.le_refl links) fun rest => ?_
    rw [List.cons_append, follow?]
    cases e <;> simp_all
  | case5 links place step steps hplace name hname hentry =>
    exact .inl fun rest => by rw [List.cons_append, follow?]; simp [hplace, hname, hentry]
  | case6 links place step steps hplace hparent ih =>
    refine ih.of_eq (Nat.le_refl links) fun rest => ?_
    rw [List.cons_append, follow?]
    simp [hplace, hparent]
  | case7 links place step steps hplace hname hparent ih =>
    refine ih.of_eq (Nat.le_refl links) fun rest => ?_
    rw [List.cons_append, follow?]
    rcases ofSegment?_cases step with hc | hc | ⟨name, hc⟩ <;> simp_all
  | case8 links place step steps hplace =>
    exact .inl fun rest => by rw [List.cons_append, follow?]; simp [hplace]

/-- Steps that stand for nothing stay in the directory. -/
theorem follow?_idle {q : Place} {left : Nat} (hq : t.follow? left q [[]] = some place) :
    q = place := by
  rw [follow?] at hq
  split at hq
  · simpa [Component.ofSegment?, follow?] using hq
  · cases hq

/-- The empty path leads nowhere. -/
theorem chars_ne_nil_of_locate? {p : Path} (h : t.locate? p = some place) : p.chars ≠ [] := by
  intro hnil
  simp [locate?, hnil] at h

/-- Relative paths below a directory are followed from its place, with the links that the way to it
has left. -/
theorem exists_left {dir : Path} (hlocate : t.locate? dir = some place) : ∃ left ≤ maxLinks,
    ∀ p : Path, p.isAbsolute = false →
      t.locate? (dir.join p) = t.follow? left place (Path.segments p.chars) := by
  have hcs := chars_ne_nil_of_locate? hlocate
  obtain ⟨cs⟩ := dir
  rw [locate?, if_neg (by simpa using hcs)] at hlocate
  obtain ⟨front, hjoin, hsegments⟩ := Path.exists_front hcs
  have hstart (more : List Char) : start t.here ⟨cs ++ more⟩ = start t.here ⟨cs⟩ := by
    obtain ⟨c, cs, rfl⟩ := List.exists_cons_of_ne_nil hcs
    rfl
  rcases t.splits maxLinks (start t.here ⟨cs⟩) (Path.segments front) with
    hnone | ⟨left, hleft, q, hq⟩
  · rcases hsegments with hsegments | hsegments
    · rw [hsegments, ← List.append_nil (Path.segments front), hnone] at hlocate
      cases hlocate
    · rw [hsegments, hnone] at hlocate
      cases hlocate
  · have hplace : q = place := by
      rcases hsegments with hsegments | hsegments
      · rw [hsegments, ← List.append_nil (Path.segments front), hq, follow?] at hlocate
        exact Option.some.inj hlocate
      · rw [hsegments, hq] at hlocate
        exact follow?_idle hlocate
    subst hplace
    refine ⟨left, hleft, fun p hp => ?_⟩
    obtain ⟨hjoin, more, hmore⟩ := hjoin p hp
    have hsame : start t.here ⟨front ++ '/' :: p.chars⟩ = start t.here ⟨cs⟩ := by
      rw [hmore, hstart]
    rw [hjoin, locate?, if_neg (by simp), Path.segments_append_slash, hsame, hq]

/-- An entry of a directory leads to what it is, or to what its target leads to. -/
theorem follow?_name {name : List Char} (hname : Component.ofSegment? name = some (.name name))
    {entries : List (List Char × Entry)} (hplace : t.get? place = some (.directory entries)) :
    (t.follow? links place [name]).bind t.get? =
      (entries.lookup name).bind (t.target? links place) := by
  have hdirectory : t.hasDirectory place = true := by simp [hasDirectory, hplace, Entry.isDirectory]
  have hchild : t.get? (place ++ [name]) = entries.lookup name := by
    rw [get?, Entry.get?_append]
    change (t.get? place).bind _ = _
    rw [hplace]
    cases h : entries.lookup name <;> simp [Entry.get?, Entry.children, h]
  rw [follow?, if_pos hdirectory, hname]
  dsimp only
  rw [hchild]
  cases hentry : entries.lookup name with
  | none => rfl
  | some e =>
    cases e with
    | link target => cases links <;> simp [target?]
    | _ => simp [follow?, target?, hchild, hentry]

end Follow
end FileTree
end SourceGauge
