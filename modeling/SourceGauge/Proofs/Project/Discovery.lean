import Mathlib
import SourceGauge.Project.Discovery
import SourceGauge.Proofs.Ignore.Walk
import SourceGauge.Proofs.Path.Below
import SourceGauge.Proofs.Path.Order

/-! Where a project is checked out does not change which of its files are sources and which of these
are test code. What is left of a file below the root is its relative path, however the root is
spelled, and nothing else tells the type; below one root the order of the files is that of their
relative paths. -/
namespace SourceGauge
namespace Path

section Below
variable {base p : Path}

/-- Below the base, what is left of a joined path has the components of the path. -/
theorem IsPlain.exists_below? (h : p.IsPlain) (base : Path) :
    ∃ rest, (base.join p).below? base = some rest ∧ rest.components = p.components := by
  have hjoin := h.components_join base
  cases hbelow : (base.join p).below? base with
  | none =>
    refine (below?_eq_none_iff.1 hbelow ?_).elim
    rw [hjoin]
    exact List.prefix_append _ _
  | some rest =>
    have hrest := (isRest_of_below? hbelow).components
    rw [hjoin] at hrest
    exact ⟨rest, rfl, (List.append_cancel_left hrest).symm⟩

theorem IsPlain.before_join_iff {q : Path} (h : p.IsPlain) (h' : q.IsPlain) (base : Path) :
    (base.join p).Before (base.join q) ↔ p.Before q := by
  rw [Before, Before, h.components_join, h'.components_join, compare_append_left]

end Below

section Kind
variable {p q : Path} {testDirs : List String}

theorem fileType_congr (h : p.components = q.components) (testDirs : List String) :
    p.fileType testDirs = q.fileType testDirs := by
  rw [fileType, fileType, h]

/-- A directory with one of the names makes test code of what is below it. -/
theorem fileType_eq_test_iff : p.fileType testDirs = .test ↔
    ∃ dir ∈ testDirs, .name dir.toList ∈ p.components.dropLast := by
  unfold fileType
  split
  case isTrue h =>
    obtain ⟨c, hc, hbears⟩ := List.any_eq_true.1 h
    cases c with
    | name cs =>
      refine iff_of_true rfl ⟨String.ofList cs, List.contains_iff_mem.1 hbears, ?_⟩
      rw [String.toList_ofList]
      exact hc
    | _ => cases hbears
  case isFalse h =>
    refine iff_of_false (by decide) ?_
    rintro ⟨dir, hdir, hc⟩
    apply h
    refine List.any_eq_true.2 ⟨_, hc, List.contains_iff_mem.2 ?_⟩
    rw [String.ofList_toList]
    exact hdir

theorem IsPlain.isScala_iff (h : p.IsPlain) : p.isScala = true ↔
    ∃ name, p.components.getLast? = some (.name name) ∧ EndsIn "scala".toList name := by
  obtain ⟨c, hc⟩ := Option.ne_none_iff_exists'.1 (mt List.getLast?_eq_none_iff.1 h.ne_nil)
  have hname := h.names c (List.mem_of_getLast? hc)
  cases c with
  | name cs =>
    have hfile : p.fileName? = some cs := by
      rw [fileName?, hc]
    rw [isScala, decide_eq_true_iff, extension?_eq_some_iff (by decide) hfile, hc]
    simp
  | _ => cases hname

end Kind
end Path

namespace Project
open Ignore (Walked)

section Sources
variable {root : Path} {rels paths : List Path}

/-- The source file at a relative path. -/
def sourceAt (root : Path) (testDirs : List String) (p : Path) : SourceFile :=
  ⟨root.join p, p.fileType testDirs⟩

theorem sourceFile?_join {p : Path} (h : p.IsPlain) (root : Path) (testDirs : List String) :
    sourceFile? root testDirs (root.join p) =
      if p.isScala then some (sourceAt root testDirs p) else none := by
  obtain ⟨rest, hbelow, hrest⟩ := h.exists_below? root
  rw [sourceFile?, Path.isScala, h.extension?_join, hbelow, Option.getD_some,
    Path.fileType_congr hrest]
  rfl

/-- The relative paths of the sources, in their order. -/
def sourcePaths (rels : List Path) : List Path := (rels.filter Path.isScala).mergeSort Path.le

theorem sourcesAmong_eq (h : Walked root rels paths) (testDirs : List String) :
    sourcesAmong root testDirs paths = (sourcePaths rels).map (sourceAt root testDirs) := by
  have hfound : (rels.map root.join).filterMap (sourceFile? root testDirs) =
      (rels.filter Path.isScala).map (sourceAt root testDirs) := by
    rw [List.filterMap_map, ← List.filterMap_eq_map, List.filterMap_filter]
    exact List.filterMap_congr fun p hp => sourceFile?_join (h.plain p hp) root testDirs
  have hplain : ∀ p ∈ rels.filter Path.isScala, p.IsPlain :=
    fun p hp => h.plain p (List.mem_of_mem_filter hp)
  have hdiffer : ((rels.filter Path.isScala).map (sourceAt root testDirs)).Pairwise
      fun f g => f.path.components ≠ g.path.components := by
    have honce : (rels.filter Path.isScala).Pairwise _ := h.once.sublist List.filter_sublist
    have hjoined := Path.pairwise_join hplain honce root
    rw [List.pairwise_map] at hjoined ⊢
    exact hjoined
  have hperm := h.joined.filterMap (sourceFile? root testDirs)
  rw [hfound] at hperm
  rw [sourcesAmong, ← Path.mergeSort_eq_of_perm _ hperm.symm hdiffer, sourcePaths]
  symm
  apply List.map_mergeSort
  intro p hp q hq
  dsimp only [sourceAt]
  rw [Path.le, Path.le, (hplain p hp).components_join, (hplain q hq).components_join,
    Path.compare_append_left]

theorem pairwise_before_sourcePaths
    (honce : rels.Pairwise fun p q => p.components ≠ q.components) :
    (sourcePaths rels).Pairwise fun p q => p.Before q :=
  Path.pairwise_before_mergeSort id (honce.sublist List.filter_sublist)

theorem sourcePaths_eq_of_perm {rels' : List Path} (hperm : rels.Perm rels')
    (honce : rels.Pairwise fun p q => p.components ≠ q.components) :
    sourcePaths rels' = sourcePaths rels :=
  (Path.mergeSort_eq_of_perm id (hperm.filter _)
    (honce.sublist List.filter_sublist)).symm

theorem mem_sourcePaths {p : Path} : p ∈ sourcePaths rels ↔ p ∈ rels ∧ p.isScala = true := by
  rw [sourcePaths, List.mem_mergeSort, List.mem_filter]

/-- The file is the source at a relative path. The last name has the extension of sources, and the
file is test code if a directory between the root and the file bears one of the names. -/
structure IsSourceAt (root : Path) (testDirs : List String) (p : Path) (f : SourceFile) : Prop where
  named : ∃ name, p.components.getLast? = some (.name name) ∧ Path.EndsIn "scala".toList name
  path : f.path = root.join p
  fileType : f.fileType = .test ↔ ∃ dir ∈ testDirs, .name dir.toList ∈ p.components.dropLast

theorem isSourceAt_iff {p : Path} (h : p.IsPlain) {testDirs : List String} {f : SourceFile} :
    IsSourceAt root testDirs p f ↔ p.isScala = true ∧ f = sourceAt root testDirs p := by
  rw [h.isScala_iff]
  constructor
  · rintro ⟨hnamed, hpath, htype⟩
    rw [← Path.fileType_eq_test_iff] at htype
    refine ⟨hnamed, ?_⟩
    obtain ⟨path, type⟩ := f
    obtain rfl : path = root.join p := hpath
    rw [sourceAt, SourceFile.mk.injEq]
    refine ⟨rfl, ?_⟩
    cases type <;> cases hp : p.fileType testDirs <;> simp_all
  · rintro ⟨hnamed, rfl⟩
    exact ⟨hnamed, rfl, Path.fileType_eq_test_iff⟩

/-- Whatever the root is, the sources are the files with the extension of sources, each in the type
that its relative path gives it, and they stand in the order of their paths. Two roots with the same
files below them have the same sources of the same types, in the same order. In a tree of ordinary
names, all that is found below a directory is told by relative paths in this way. -/
theorem discover_types {t : FileTree} {home root : Path} {rels : List Path}
    (h : Walked root rels (Ignore.files t home root)) (testDirs : List String) :
    (∀ f, f ∈ discover t home root testDirs ↔ ∃ p ∈ rels, IsSourceAt root testDirs p f) ∧
    (discover t home root testDirs).Pairwise (fun f g => f.path.Before g.path) ∧
    (∀ {t' : FileTree} {home' root' : Path} {rels' : List Path},
      Walked root' rels' (Ignore.files t' home' root') → rels'.Perm rels →
      ∃ shown : List (Path × FileType), (∀ x ∈ shown, x.1 ∈ rels) ∧
        discover t home root testDirs = (shown.map fun x => ⟨root.join x.1, x.2⟩) ∧
        discover t' home' root' testDirs = shown.map fun x => ⟨root'.join x.1, x.2⟩) ∧
    ∀ {t' : FileTree} {root' : Path} {entries : List (List Char × Entry)} (home' : Path),
      (Entry.directory t'.entries).Ordinary → t'.find? root' = some (.directory entries) →
      ∃ rels', Walked root' rels' (Ignore.files t' home' root') := by
  have hsources := sourcesAmong_eq h testDirs
  refine ⟨fun f => ?_, ?_, fun {t' home' root' rels'} h' hperm => ?_,
    fun home' hnames hroot => Ignore.exists_walked hnames hroot home'⟩
  · rw [discover, hsources, List.mem_map]
    constructor
    · rintro ⟨p, hp, rfl⟩
      obtain ⟨hp, hscala⟩ := mem_sourcePaths.1 hp
      exact ⟨p, hp, (isSourceAt_iff (h.plain p hp)).2 ⟨hscala, rfl⟩⟩
    · rintro ⟨p, hp, hf⟩
      obtain ⟨hscala, rfl⟩ := (isSourceAt_iff (h.plain p hp)).1 hf
      exact ⟨p, mem_sourcePaths.2 ⟨hp, hscala⟩, rfl⟩
  · rw [discover, hsources, List.pairwise_map]
    refine (pairwise_before_sourcePaths h.once).imp_of_mem fun {p q} hp hq hbefore => ?_
    have hplain {p : Path} (hp : p ∈ sourcePaths rels) : p.IsPlain :=
      h.plain p (mem_sourcePaths.1 hp).1
    exact ((hplain hp).before_join_iff (hplain hq) root).2 hbefore
  · refine ⟨(sourcePaths rels).map fun p => (p, p.fileType testDirs), ?_, ?_, ?_⟩
    · intro x hx
      obtain ⟨p, hp, rfl⟩ := List.mem_map.1 hx
      exact (mem_sourcePaths.1 hp).1
    · rw [discover, hsources, List.map_map]
      rfl
    · rw [discover, sourcesAmong_eq h', sourcePaths_eq_of_perm hperm.symm h.once, List.map_map]
      rfl

/-- One project in a directory that bears the name of tests, and as the working directory. -/
theorem discover_types_checked_out_twice :
    let project := [("A.scala".toList, Entry.file []),
      ("it".toList, .directory [("B.scala".toList, .file [])])]
    let t : FileTree := ⟨[("it".toList, .directory project)], []⟩
    let t' : FileTree := ⟨project, []⟩
    let home := Path.ofString "/"
    let root := Path.ofString "it/."
    let root' := Path.ofString "."
    let main := Path.ofString "A.scala"
    let test := Path.ofString "it/B.scala"
    (Walked root [main, test] (Ignore.files t home root) ∧
      Walked root' [main, test] (Ignore.files t' home root') ∧ [main, test].Perm [main, test]) ∧
    ⟨root.join main, .main⟩ ∈ discover t home root ["it"] ∧
    ⟨root.join test, .test⟩ ∈ discover t home root ["it"] ∧
    ∃ shown : List (Path × FileType), (∀ x ∈ shown, x.1 ∈ [main, test]) ∧
      discover t home root ["it"] = (shown.map fun x => ⟨root.join x.1, x.2⟩) ∧
      discover t' home root' ["it"] = shown.map fun x => ⟨root'.join x.1, x.2⟩ := by
  intro project t t' home root root' main test
  have hplain : ∀ p ∈ [main, test], p.IsPlain :=
    List.forall_mem_cons.2
      ⟨⟨by decide, by decide⟩, List.forall_mem_singleton.2 ⟨by decide, by decide⟩⟩
  have honce : [main, test].Pairwise fun p q => p.components ≠ q.components := by decide
  have hfiles : Ignore.files t home root = [main, test].map root.join := by
    dsimp only [t, project, home, root, main, test]
    cbv
  have hfiles' : Ignore.files t' home root' = [main, test].map root'.join := by
    dsimp only [t', project, home, root', main, test]
    cbv
  have hwalked : Walked root [main, test] (Ignore.files t home root) :=
    ⟨hplain, honce, .of_eq hfiles⟩
  have hwalked' : Walked root' [main, test] (Ignore.files t' home root') :=
    ⟨hplain, honce, .of_eq hfiles'⟩
  obtain ⟨hmem, -, hroots, -⟩ := discover_types hwalked ["it"]
  refine ⟨⟨hwalked, hwalked', .refl _⟩, ?_, ?_, hroots hwalked' (.refl _)⟩
  · exact (hmem _).2 ⟨main, List.mem_cons_self,
      ⟨"A.scala".toList, by decide, ['A'], by decide, rfl⟩, rfl,
      iff_of_false (by decide) (by decide)⟩
  · exact (hmem _).2 ⟨test, List.mem_cons_of_mem _ List.mem_cons_self,
      ⟨"B.scala".toList, by decide, ['B'], by decide, rfl⟩, rfl, iff_of_true rfl (by decide)⟩

end Sources
end Project
end SourceGauge
