import Mathlib
import SourceGauge.Ignore.Walk
import SourceGauge.Proofs.FileTree.Follow
import SourceGauge.Proofs.Path.Name

/-! What a walk finds. In a tree of ordinary names, every file below the root of the walk is found
at most once, and as the root joined with the names that lead to it. -/
namespace SourceGauge

/-- In every directory the names are ordinary and differ from each other. -/
def Entry.Ordinary (e : Entry) : Prop :=
  ∀ place entries, e.get? place = some (.directory entries) →
    (∀ name ∈ entries.map (·.1), (Path.mk name).IsName) ∧ (entries.map (·.1)).Nodup

section Ordinary
variable {e child : Entry} {entries : List (List Char × Entry)}

theorem Entry.Ordinary.of_get? (h : e.Ordinary) (place : Place)
    (hchild : e.get? place = some child) : child.Ordinary := by
  intro rest entries hentries
  apply h (place ++ rest) entries
  rw [Entry.get?_append, hchild, Option.bind_some, hentries]

theorem Entry.Ordinary.of_directory (h : (Entry.directory entries).Ordinary) :
    (∀ e ∈ entries, (Path.mk e.1).IsName ∧ e.2.Ordinary) ∧ (entries.map (·.1)).Nodup := by
  obtain ⟨hnames, honce⟩ := h [] entries rfl
  refine ⟨fun e he => ⟨hnames e.1 (List.mem_map_of_mem he), ?_⟩, honce⟩
  apply h.of_get? [e.1]
  rw [Entry.get?, Entry.children, Entry.lookup_of_mem honce he, Option.bind_some, Entry.get?]

end Ordinary

namespace Ignore

/-- The paths are the root joined with paths of ordinary names, each of these once. -/
structure Walked (root : Path) (rels paths : List Path) : Prop where
  plain : ∀ p ∈ rels, p.IsPlain
  once : rels.Pairwise fun p q => p.components ≠ q.components
  joined : paths.Perm (rels.map root.join)

namespace Walked
variable {root : Path} {rels paths : List Path}

theorem nil (root : Path) : Walked root [] [] := ⟨nofun, .nil, .nil⟩

theorem file {name : Path} (hname : name.IsName) (root : Path) :
    Walked root [name] [root.join name] where
  plain := List.forall_mem_singleton.2 hname.isPlain
  once := List.pairwise_singleton _ _
  joined := .refl _

/-- What a walk from a directory inside the root finds. -/
theorem below {name : Path} (hname : name.IsName) (h : Walked (root.join name) rels paths) :
    Walked root (rels.map name.join) paths where
  plain := by
    intro p hp
    obtain ⟨q, hq, rfl⟩ := List.mem_map.1 hp
    exact hname.isPlain.join (h.plain q hq)
  once := Path.pairwise_join h.plain h.once name
  joined := by
    rw [List.map_map]
    refine h.joined.trans (.of_eq (List.map_congr_left fun p hp => ?_))
    exact hname.join_join (h.plain p hp).isAbsolute

theorem append {rels' paths' : List Path} (h : Walked root rels paths)
    (h' : Walked root rels' paths')
    (hne : ∀ p ∈ rels, ∀ q ∈ rels', p.components ≠ q.components) :
    Walked root (rels ++ rels') (paths ++ paths') where
  plain := List.forall_mem_append.2 ⟨h.plain, h'.plain⟩
  once := List.pairwise_append.2 ⟨h.once, h'.once, hne⟩
  joined := by
    rw [List.map_append]
    exact h.joined.append h'.joined

end Walked

mutual

/-- What is found at one entry is the entry or stands below it. -/
theorem exists_walked_filesAt (t : FileTree) (s : Surroundings) (place : Place) (root : Path)
    {name : List Char} (hname : (Path.mk name).IsName) (e : Entry) (he : e.Ordinary) :
    ∃ rels, Walked root rels (filesAt t s place (root.join ⟨name⟩) e) ∧
      ∀ p ∈ rels, p.components.head? = some (.name name) := by
  cases e with
  | file bytes =>
    refine ⟨[⟨name⟩], Walked.file hname root, List.forall_mem_singleton.2 ?_⟩
    rw [hname.components]
    rfl
  | link target => exact ⟨[], Walked.nil root, nofun⟩
  | directory entries =>
    obtain ⟨hentries, honce⟩ := he.of_directory
    obtain ⟨rels, hrels, -⟩ := exists_walked_filesIn t
      (s.enter (Layer.ofPlace t place) (root.join ⟨name⟩)) place (root.join ⟨name⟩) entries hentries
      honce
    refine ⟨rels.map (Path.mk name).join, hrels.below hname, ?_⟩
    intro p hp
    obtain ⟨q, hq, rfl⟩ := List.mem_map.1 hp
    rw [(hrels.plain q hq).components_join, hname.components]
    rfl

/-- What is found at the entries of a directory stands below the directory. -/
theorem exists_walked_filesIn (t : FileTree) (s : Surroundings) (place : Place) (root : Path)
    (entries : List (List Char × Entry))
    (hentries : ∀ e ∈ entries, (Path.mk e.1).IsName ∧ e.2.Ordinary)
    (honce : (entries.map (·.1)).Nodup) :
    ∃ rels, Walked root rels (filesIn t s place root entries) ∧
      ∀ p ∈ rels, ∃ name ∈ entries.map (·.1), p.components.head? = some (.name name) := by
  cases entries with
  | nil => exact ⟨[], Walked.nil root, nofun⟩
  | cons first rest =>
    obtain ⟨name, e⟩ := first
    obtain ⟨⟨hname, he⟩, hrest⟩ := List.forall_mem_cons.1 hentries
    obtain ⟨hnew, honce⟩ := List.nodup_cons.1 honce
    obtain ⟨rels', hrels', hheads'⟩ := exists_walked_filesIn t s place root rest hrest honce
    obtain ⟨rels, hrels, hheads⟩ :
        ∃ rels, Walked root rels (if s.skips (root.join ⟨name⟩) e.isDirectory then []
          else filesAt t s (place ++ [name]) (root.join ⟨name⟩) e) ∧
        ∀ p ∈ rels, p.components.head? = some (.name name) := by
      split
      case isTrue => exact ⟨[], Walked.nil root, nofun⟩
      case isFalse => exact exists_walked_filesAt t s (place ++ [name]) root hname e he
    refine ⟨rels ++ rels', hrels.append hrels' fun p hp q hq hsame => ?_, fun p hp => ?_⟩
    · obtain ⟨other, hother, hq⟩ := hheads' q hq
      rw [← hsame, hheads p hp] at hq
      obtain rfl : name = other := by simpa using hq
      exact hnew hother
    · rcases List.mem_append.1 hp with hp | hp
      · exact ⟨name, List.mem_cons_self, hheads p hp⟩
      · obtain ⟨other, hother, hp⟩ := hheads' p hp
        exact ⟨other, List.mem_cons_of_mem _ hother, hp⟩

end

/-- In a tree of ordinary names, a walk from a directory finds its files as the directory joined
with their relative paths, each at most once. -/
theorem exists_walked {t : FileTree} {root : Path} {entries : List (List Char × Entry)}
    (ht : (Entry.directory t.entries).Ordinary) (hroot : t.find? root = some (.directory entries))
    (home : Path) : ∃ rels, Walked root rels (files t home root) := by
  obtain ⟨place, hlocate, hplace⟩ := Option.bind_eq_some_iff.1 hroot
  obtain ⟨hentries, honce⟩ := (ht.of_get? place hplace).of_directory
  obtain ⟨rels, hrels, -⟩ := exists_walked_filesIn t
    ((Surroundings.ofPlace t home place root).enter (Layer.ofPlace t place) root) place root entries
    hentries honce
  unfold files
  split
  case isTrue => exact ⟨[], Walked.nil root⟩
  case isFalse =>
    refine ⟨rels, ?_⟩
    simp only [hlocate, hplace, Option.elim_some]
    exact hrels

end Ignore
end SourceGauge
