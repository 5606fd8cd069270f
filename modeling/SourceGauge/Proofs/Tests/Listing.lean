import Mathlib
import SourceGauge.Proofs.FileTree.Follow
import SourceGauge.Proofs.Tests.Directory

/-! Which reports are found in a directory, and in what order. An entry counts if its name is that
of a markup file and it is a file or a link that leads to one. What the entries say decides the
list: neither their order nor the entries that do not count can change it. -/
namespace SourceGauge
namespace Path

section Order

theorem compare_eq_lt_iff (cs cs' : List Char) : compare cs cs' = .lt ↔ cs < cs' := by
  induction cs generalizing cs' with
  | nil => cases cs' <;> simp
  | cons c cs ih =>
    cases cs' with
    | nil => simp
    | cons c' cs' =>
      rw [List.compare_cons_cons, Ordering.then_eq_lt, List.cons_lt_cons_iff, ih,
        compare_lt_iff_lt, compare_eq_iff_eq]

/-- Files with single names are in the order of their names. -/
theorem IsName.le_eq {p q : Path} (h : p.IsName) (h' : q.IsName) :
    Path.le p q = decide (p.chars ≤ q.chars) := by
  have hcompare : compare p.components q.components =
      ((compare p.chars q.chars).then .eq).then .eq := by
    rw [h.components, h'.components, List.compare_cons_cons]
    rfl
  rw [Path.le, hcompare, Bool.eq_iff_iff, decide_eq_true_iff, ← not_lt, ← compare_eq_lt_iff,
    Std.OrientedOrd.eq_swap (a := p.chars)]
  cases compare q.chars p.chars <;> simp

end Order
end Path

namespace TestReports

/-- The names of reports, each once and in order: those of conventional reports, or those of all
reports if none is conventional. -/
structure Lists (isReport : List Char → Prop) (reports : List (List Char)) : Prop where
  sorted : reports.Pairwise (· < ·)
  mem_iff : ∀ name, name ∈ reports ↔ isReport name ∧
    ("TEST-".toList <+: name ∨ ∀ other, isReport other → ¬ "TEST-".toList <+: other)

section Lists
variable {isReport : List Char → Prop} {reports : List (List Char)}

/-- Which names are those of reports decides the list. -/
theorem Lists.unique {others : List (List Char)} (h : Lists isReport reports)
    (h' : Lists isReport others) : reports = others :=
  h.sorted.eq_of_mem_iff h'.sorted fun name => (h.mem_iff name).trans (h'.mem_iff name).symm

/-- The conventional names among those of reports, or all of these if there is none. -/
def preferred (reports : List (List Char)) : List (List Char) :=
  let conventional := reports.filter fun name => conventionalStart.toList.isPrefixOf name
  if conventional.isEmpty then reports else conventional

theorem preferred_sublist (reports : List (List Char)) : (preferred reports).Sublist reports := by
  unfold preferred
  dsimp only
  split
  · exact List.Sublist.refl reports
  · exact List.filter_sublist

theorem mem_preferred_iff {name : List Char} : name ∈ preferred reports ↔ name ∈ reports ∧
    ("TEST-".toList <+: name ∨ ∀ other ∈ reports, ¬ "TEST-".toList <+: other) := by
  have hstart (name : List Char) :
      conventionalStart.toList.isPrefixOf name = true ↔ "TEST-".toList <+: name :=
    List.isPrefixOf_iff_prefix
  unfold preferred
  dsimp only
  split
  · next hnone =>
    have hnone : ∀ other ∈ reports, ¬ "TEST-".toList <+: other := by
      simpa only [List.isEmpty_iff, List.filter_eq_nil_iff, hstart] using hnone
    exact ⟨fun h => ⟨h, .inr hnone⟩, And.left⟩
  · next hsome =>
    rw [List.mem_filter, hstart]
    refine and_congr_right fun _ => ⟨.inl, fun h => h.resolve_right fun hnone => hsome ?_⟩
    simpa only [List.isEmpty_iff, List.filter_eq_nil_iff, hstart] using hnone

theorem lists_mergeSort (honce : reports.Nodup)
    (hreports : ∀ name, name ∈ reports ↔ isReport name) :
    Lists isReport ((preferred reports).mergeSort fun name other => name ≤ other) where
  sorted := by
    have htrans (x y z : List Char) :
        decide (x ≤ y) = true → decide (y ≤ z) = true → decide (x ≤ z) = true := by
      simpa using le_trans
    have htotal (x y : List Char) : (decide (x ≤ y) || decide (y ≤ x)) = true := by
      simpa using le_total x y
    have hle : ((preferred reports).mergeSort fun name other => name ≤ other).Pairwise (· ≤ ·) := by
      simpa using List.pairwise_mergeSort htrans htotal (preferred reports)
    have honce := (List.mergeSort_perm (preferred reports) fun name other => name ≤ other).nodup_iff
      |>.2 (honce.sublist (preferred_sublist reports))
    exact hle.imp₂ (fun _ _ => lt_of_le_of_ne) honce
  mem_iff name := by
    rw [List.mem_mergeSort, mem_preferred_iff]
    simp only [hreports]

end Lists

section Names
variable {dir : Path} {names : List (List Char)}

theorem mergeSort_map_mk (hnames : ∀ name ∈ names, (Path.mk name).IsName) :
    (names.map Path.mk).mergeSort Path.le =
      (names.mergeSort fun name other => name ≤ other).map Path.mk := by
  symm
  apply List.map_mergeSort
  intro name hname other hother
  exact ((hnames name hname).le_eq (hnames other hother)).symm

theorem filter_isConventional_map_mk (hnames : ∀ name ∈ names, (Path.mk name).IsName) :
    (names.map Path.mk).filter isConventional =
      (names.filter fun name => conventionalStart.toList.isPrefixOf name).map Path.mk := by
  rw [List.filter_map]
  congr 1
  apply List.filter_congr
  intro name hname
  simp [isConventional, (hnames name hname).fileName?]

/-- The reports of a directory are chosen and sorted as its names are. -/
theorem among_eq_map (hnames : ∀ name ∈ names, (Path.mk name).IsName) (isFile : Path → Bool) :
    among dir names isFile =
      ((preferred (names.filter fun name => (Path.mk name).extension? = some "xml".toList &&
        isFile (dir.join ⟨name⟩))).mergeSort fun name other => name ≤ other).map
          fun name => dir.join ⟨name⟩ := by
  have hplain : names.map (fun name => Path.join ⟨[]⟩ ⟨name⟩) = names.map Path.mk :=
    List.map_congr_left fun name _ => by simp [Path.join]
  rw [among_join hnames, among, hplain, List.filter_map]
  generalize hfiles : names.filter (_ ∘ Path.mk) = files
  have hsame : names.filter (fun name => (Path.mk name).extension? = some "xml".toList &&
      isFile (dir.join ⟨name⟩)) = files := hfiles
  have hchosen : ∀ name ∈ files, (Path.mk name).IsName := by
    intro name hname
    rw [← hfiles] at hname
    exact hnames name (List.mem_of_mem_filter hname)
  have hpreferred : (if ((files.map Path.mk).filter isConventional).isEmpty then files.map Path.mk
      else (files.map Path.mk).filter isConventional) = (preferred files).map Path.mk := by
    rw [filter_isConventional_map_mk hchosen, List.isEmpty_map, preferred,
      ← apply_ite (List.map Path.mk)]
  have hleft : ∀ name ∈ preferred files, (Path.mk name).IsName :=
    fun name hname => hchosen name ((preferred_sublist files).subset hname)
  rw [hsame, hpreferred, mergeSort_map_mk hleft, List.map_map]
  rfl

/-- In a directory whose names are distinct, the list is that of the markup files. -/
theorem exists_among (dir : Path) (hnames : ∀ name ∈ names, (Path.mk name).IsName)
    (honce : names.Nodup) (isFile : Path → Bool) :
    ∃ reports, among dir names isFile = (reports.map fun name => dir.join ⟨name⟩) ∧
      Lists (fun name => name ∈ names ∧ Path.EndsIn "xml".toList name ∧
        isFile (dir.join ⟨name⟩) = true) reports := by
  refine ⟨_, among_eq_map hnames isFile, lists_mergeSort (honce.filter _) fun name => ?_⟩
  rw [List.mem_filter, Bool.and_eq_true, decide_eq_true_iff]
  refine and_congr_right fun hname => and_congr_left fun _ => ?_
  exact Path.extension?_eq_some_iff (by decide) (hnames name hname).fileName?

end Names

/-- The entry of the directory at `place` is a report: it has the name of a markup file, and it is a
file, or a link that leads to one when `links` links may be followed. -/
structure IsReport (t : FileTree) (links : Nat) (place : Place) (e : List Char × Entry) : Prop where
  named : Path.EndsIn "xml".toList e.1
  leadsToFile : ∃ bytes, t.target? links place e.2 = some (.file bytes)

section Listing
variable {t : FileTree} {dir : Path} {entries : List (List Char × Entry)} {links : Nat}
  {place : Place}

theorem isFile_eq_true_iff (p : Path) :
    t.isFile p = true ↔ ∃ bytes, t.find? p = some (.file bytes) := by
  unfold FileTree.isFile FileTree.read?
  split
  · next bytes hfile => simp [hfile]
  · next hother => simpa using hother

/-- An entry is seen as a file if it leads to one. -/
theorem isFile_join_iff (hplace : t.get? place = some (.directory entries))
    (hbelow : ∀ p : Path, p.isAbsolute = false →
      t.locate? (dir.join p) = t.follow? links place (Path.segments p.chars))
    (honce : (entries.map (·.1)).Nodup) {e : List Char × Entry} (he : e ∈ entries)
    (hname : (Path.mk e.1).IsName) : t.isFile (dir.join ⟨e.1⟩) = true ↔
      ∃ bytes, t.target? links place e.2 = some (.file bytes) := by
  have hread : Component.ofSegment? e.1 = some (.name e.1) := hname.2
  have hfind : t.find? (dir.join ⟨e.1⟩) = t.target? links place e.2 := by
    rw [FileTree.find?, hbelow _ hname.isAbsolute, hname.segments,
      FileTree.follow?_name hread hplace, Entry.lookup_of_mem honce he, Option.bind_some]
  rw [isFile_eq_true_iff, hfind]

/-- Among the names of a directory's entries, all of them or only some, the reports that are found
are the entries that are reports, if none of these is missing. -/
theorem exists_among_entries (hplace : t.get? place = some (.directory entries))
    (hbelow : ∀ p : Path, p.isAbsolute = false →
      t.locate? (dir.join p) = t.follow? links place (Path.segments p.chars))
    (hnames : ∀ name ∈ entries.map (·.1), (Path.mk name).IsName)
    (honce : (entries.map (·.1)).Nodup) {names : List (List Char)} (hdistinct : names.Nodup)
    (hsome : names ⊆ entries.map (·.1))
    (hall : ∀ e ∈ entries, IsReport t links place e → e.1 ∈ names) :
    ∃ reports, among dir names t.isFile = (reports.map fun name => dir.join ⟨name⟩) ∧
      Lists (fun name => ∃ e, (name, e) ∈ entries ∧ IsReport t links place (name, e)) reports := by
  have hreport (name : List Char) :
      (name ∈ names ∧ Path.EndsIn "xml".toList name ∧ t.isFile (dir.join ⟨name⟩) = true) ↔
        ∃ e, (name, e) ∈ entries ∧ IsReport t links place (name, e) := by
    constructor
    · rintro ⟨hname, hnamed, hfile⟩
      obtain ⟨⟨name, e⟩, he, rfl⟩ := List.mem_map.1 (hsome hname)
      have hleads := (isFile_join_iff hplace hbelow honce he (hnames name (hsome hname))).1 hfile
      exact ⟨e, he, hnamed, hleads⟩
    · rintro ⟨e, he, hreport⟩
      have hname := hnames name (List.mem_map_of_mem he)
      exact ⟨hall _ he hreport, hreport.named,
        (isFile_join_iff hplace hbelow honce he hname).2 hreport.leadsToFile⟩
  obtain ⟨reports, hamong, hlists⟩ :=
    exists_among dir (fun name hname => hnames name (hsome hname)) hdistinct t.isFile
  simp only [hreport] at hlists
  exact ⟨reports, hamong, hlists⟩

/-- The reports of a directory are the entries that are markup files, links followed: each once, in
the order of their names, and only the conventional ones if there are some. Nothing else decides the
list: it is found again from the names in any order, with any of the others left out. -/
theorem listing_reports (hdir : t.find? dir = some (.directory entries))
    (hnames : ∀ name ∈ entries.map (·.1), (Path.mk name).IsName)
    (honce : (entries.map (·.1)).Nodup) :
    ∃ place, ∃ links ≤ FileTree.maxLinks,
      (t.locate? dir = some place ∧ ∀ p : Path, p.isAbsolute = false →
        t.locate? (dir.join p) = t.follow? links place (Path.segments p.chars)) ∧
      ∃ reports : List (List Char),
        Lists (fun name => ∃ e, (name, e) ∈ entries ∧ IsReport t links place (name, e)) reports ∧
        listing t dir = .ok (reports.map fun name => dir.join ⟨name⟩) ∧
        (∀ name ∈ reports, (dir.join ⟨name⟩).fileName? = some name) ∧
        ∀ names : List (List Char), names.Nodup → names ⊆ entries.map (·.1) →
          (∀ e ∈ entries, IsReport t links place e → e.1 ∈ names) →
          among dir names t.isFile = reports.map fun name => dir.join ⟨name⟩ := by
  obtain ⟨place, hlocate, hplace⟩ := Option.bind_eq_some_iff.1 hdir
  obtain ⟨links, hlinks, hbelow⟩ := FileTree.exists_left hlocate
  have hamong {names : List (List Char)} (hdistinct : names.Nodup)
      (hsome : names ⊆ entries.map (·.1))
      (hall : ∀ e ∈ entries, IsReport t links place e → e.1 ∈ names) :=
    exists_among_entries hplace hbelow hnames honce hdistinct hsome hall
  obtain ⟨reports, hreports, hlists⟩ :=
    hamong honce (List.Subset.refl _) fun e he _ => List.mem_map_of_mem he
  refine ⟨place, links, hlinks, ⟨hlocate, hbelow⟩, reports, hlists, ?_, ?_, ?_⟩
  · rw [← hreports]
    simp [listing, FileTree.isDir, FileTree.names?, hdir, Entry.isDirectory]
  · intro name hname
    obtain ⟨⟨e, he, -⟩, -⟩ := (hlists.mem_iff name).1 hname
    have hname := hnames name (List.mem_map_of_mem he)
    rw [hname.isPlain.fileName?_join, hname.fileName?]
  · intro names hdistinct hsome hall
    obtain ⟨others, hothers, hlists'⟩ := hamong hdistinct hsome hall
    rw [hothers, hlists.unique hlists']

example :
    let t : FileTree := ⟨[("r".toList, .directory
      [("b.xml".toList, .file []), ("TEST-d.xml".toList, .directory []),
        ("TEST-gone.xml".toList, .link (Path.ofString "gone")),
        ("a.xml".toList, .link (Path.ofString "../r/b.xml")), ("c.txt".toList, .file [])])], []⟩
    listing t (Path.ofString "r/.") =
      .ok [Path.ofString "r/./a.xml", Path.ofString "r/./b.xml"] := by cbv

/-- A directory and a link that leads nowhere do not hide the report by their names. -/
theorem listing_reports_hidden :
    let t : FileTree := ⟨[("r".toList, .directory
      [("TEST-d.xml".toList, .directory []), ("b.xml".toList, .file []),
        ("TEST-gone.xml".toList, .link (Path.ofString "gone"))])], []⟩
    let dir := Path.ofString "r"
    let entries := [("TEST-d.xml".toList, .directory []), ("b.xml".toList, .file []),
        ("TEST-gone.xml".toList, .link (Path.ofString "gone"))]
    (t.find? dir = some (.directory entries) ∧
      (∀ name ∈ entries.map (·.1), (Path.mk name).IsName) ∧ (entries.map (·.1)).Nodup) ∧
    listing t dir = .ok [dir.join (Path.ofString "b.xml")] := by
  intro t dir entries
  have hdir : t.find? dir = some (.directory entries) := by cbv
  have hnames : ∀ name ∈ entries.map (·.1), (Path.mk name).IsName := by
    simp only [entries, List.map_cons, List.map_nil, List.forall_mem_cons]
    exact ⟨⟨by decide, rfl⟩, ⟨by decide, rfl⟩, ⟨by decide, rfl⟩, by simp⟩
  have honce : (entries.map (·.1)).Nodup := by decide
  obtain ⟨place, links, -, ⟨hlocate, -⟩, reports, hlists, hlisting, -⟩ :=
    listing_reports hdir hnames honce
  obtain rfl : place = ["r".toList] := Option.some.inj (hlocate.symm.trans (by cbv))
  have hgone : t.target? links ["r".toList] (.link (Path.ofString "gone")) = none := by
    cases links with
    | zero => rfl
    | succ links => cbv
  have hreport (name : List Char) : (∃ e, (name, e) ∈ entries ∧
      IsReport t links ["r".toList] (name, e)) ↔ name = "b.xml".toList := by
    constructor
    · rintro ⟨e, he, hreport⟩
      obtain ⟨bytes, hbytes⟩ := hreport.leadsToFile
      simp only [entries, List.mem_cons, Prod.mk.injEq, List.not_mem_nil, or_false] at he
      rcases he with ⟨rfl, rfl⟩ | ⟨rfl, rfl⟩ | ⟨rfl, rfl⟩
      · cases hbytes
      · rfl
      · rw [hgone] at hbytes
        cases hbytes
    · rintro rfl
      exact ⟨.file [], by simp [entries], ⟨['b'], by simp, rfl⟩, [], rfl⟩
  have honly : Lists (fun name => ∃ e, (name, e) ∈ entries ∧
      IsReport t links ["r".toList] (name, e)) ["b.xml".toList] := by
    refine ⟨List.pairwise_singleton _ _, fun name => ?_⟩
    simp only [hreport, forall_eq, List.mem_singleton]
    exact ⟨fun h => ⟨h, .inr (by decide)⟩, And.left⟩
  rw [hlists.unique honly] at hlisting
  exact ⟨⟨hdir, hnames, honce⟩, hlisting⟩

end Listing
end TestReports
end SourceGauge
