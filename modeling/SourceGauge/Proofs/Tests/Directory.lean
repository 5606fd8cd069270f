import SourceGauge.Proofs.FileTree.Walk
import SourceGauge.Proofs.Path.Name
import SourceGauge.Proofs.Path.Order
import SourceGauge.Proofs.Tests.Results

/-! The reports in a directory do not depend on how the directory is spelled. Two paths that lead to
one directory list the same files, in the same order, and collecting them gives the same results. A
path that resolution makes shorter is such a pair with what is left of it, if something is. -/
namespace SourceGauge

namespace FileTree

/-- Every entry has a name that is one piece of a path. -/
def WellNamed (t : FileTree) : Prop :=
  ∀ place entries, t.get? place = some (.directory entries) →
    ∀ name ∈ entries.map (·.1), (Path.mk name).IsName

/-- The path leads to a directory, which stands at `place`. -/
structure LeadsTo (t : FileTree) (p : Path) (place : Place) : Prop where
  locate? : t.locate? p = some place
  hasDirectory : t.hasDirectory place = true

section LeadsTo
variable {t : FileTree} {dir dir' : Path} {place : Place}

theorem isDir_iff : t.isDir dir = true ↔ ∃ place, t.LeadsTo dir place := by
  constructor
  · intro h
    unfold isDir find? at h
    cases hlocate : t.locate? dir with
    | none => simp [hlocate] at h
    | some place => exact ⟨place, hlocate, by unfold hasDirectory; simpa [hlocate] using h⟩
  · rintro ⟨place, h⟩
    have hdirectory := h.hasDirectory
    unfold hasDirectory at hdirectory
    simpa [isDir, find?, h.locate?] using hdirectory

theorem LeadsTo.exists_entries (h : t.LeadsTo dir place) :
    ∃ entries, t.get? place = some (.directory entries) := by
  have hdirectory := h.hasDirectory
  unfold FileTree.hasDirectory at hdirectory
  cases hentry : t.get? place with
  | none => simp [hentry] at hdirectory
  | some e =>
    cases e with
    | directory entries => exact ⟨entries, rfl⟩
    | _ => simp [hentry, Entry.isDirectory] at hdirectory

/-- What stands below a directory does not depend on how the directory is spelled. -/
theorem LeadsTo.find?_join (ht : t.Linkless) (h : t.LeadsTo dir place)
    (h' : t.LeadsTo dir' place) (p : Path) : t.find? (dir.join p) = t.find? (dir'.join p) := by
  cases hp : p.isAbsolute with
  | true => simp [Path.join, hp]
  | false => rw [find?, find?, locate?_join ht h.locate? hp, locate?_join ht h'.locate? hp]

end LeadsTo
end FileTree

namespace TestReports

/-- The reports are chosen and sorted by their names alone. -/
theorem among_join {dir : Path} {names : List (List Char)}
    (hnames : ∀ name ∈ names, (Path.mk name).IsName) (isFile : Path → Bool) :
    among dir names isFile =
      (among ⟨[]⟩ names fun p => isFile (dir.join p)).map dir.join := by
  have hplain : names.map (fun name => Path.join ⟨[]⟩ ⟨name⟩) = names.map Path.mk :=
    List.map_congr_left fun name _ => by simp [Path.join]
  have hbelow : names.map (fun name => dir.join ⟨name⟩) = (names.map Path.mk).map dir.join := by
    rw [List.map_map]
    rfl
  have hnames : ∀ p ∈ names.map Path.mk, p.IsName := by simpa using hnames
  unfold among
  rw [hplain, hbelow]
  generalize names.map Path.mk = paths at hnames
  have hfiles : (paths.map dir.join).filter
      (fun p => p.extension? = some "xml".toList && isFile p) =
      (paths.filter fun p => p.extension? = some "xml".toList && isFile (dir.join p)).map
        dir.join := by
    rw [List.filter_map]
    refine congrArg _ (List.filter_congr fun p hp => ?_)
    simp [Path.extension?, (hnames p hp).isPlain.fileName?_join]
  have hconventional : ((paths.filter fun p =>
        p.extension? = some "xml".toList && isFile (dir.join p)).map dir.join).filter
      isConventional =
      ((paths.filter fun p => p.extension? = some "xml".toList && isFile (dir.join p)).filter
        isConventional).map dir.join := by
    rw [List.filter_map]
    refine congrArg _ (List.filter_congr fun p hp => ?_)
    simp [isConventional, (hnames p (List.mem_of_mem_filter hp)).isPlain.fileName?_join]
  have hsort (files : List Path) (h : ∀ p ∈ files, p.IsName) :
      (files.map dir.join).mergeSort Path.le = (files.mergeSort Path.le).map dir.join := by
    refine (List.map_mergeSort fun p hp q hq => ?_).symm
    rw [Path.le, Path.le, (h p hp).isPlain.components_join, (h q hq).isPlain.components_join,
      Path.compare_append_left]
  dsimp only
  rw [hfiles, hconventional, List.isEmpty_map]
  split
  · exact hsort _ fun p hp => hnames p (List.mem_of_mem_filter hp)
  · exact hsort _ fun p hp =>
      hnames p (List.mem_of_mem_filter (List.mem_of_mem_filter hp))

/-- Two spellings of a directory list the same names. -/
theorem exists_listing {t : FileTree} (ht : t.Linkless) (hnames : t.WellNamed) {dir dir' : Path}
    {place : Place} (h : t.LeadsTo dir place) (h' : t.LeadsTo dir' place) :
    ∃ paths : List Path, listing t dir = .ok (paths.map dir.join) ∧
      listing t dir' = .ok (paths.map dir'.join) := by
  obtain ⟨entries, hentries⟩ := h.exists_entries
  have hlisting (d : Path) (hd : t.LeadsTo d place) : listing t d =
      .ok ((among ⟨[]⟩ (entries.map (·.1)) fun p => t.isFile (d.join p)).map d.join) := by
    have hfind : t.find? d = some (.directory entries) := by
      simp [FileTree.find?, hd.locate?, hentries]
    rw [← among_join (hnames place entries hentries)]
    simp [listing, FileTree.isDir_iff.2 ⟨place, hd⟩, FileTree.names?, hfind]
  have hfiles : (fun p => t.isFile (dir.join p)) = fun p => t.isFile (dir'.join p) := by
    funext p
    rw [FileTree.isFile, FileTree.isFile, FileTree.read?, FileTree.read?,
      h.find?_join ht h' p]
  exact ⟨_, hlisting dir h, by rw [hlisting dir' h', hfiles]⟩

end TestReports

/-- The report of a file of a directory. -/
def TestReport.below (dir : Path) (r : TestReport) : TestReport :=
  { r with path := dir.join r.path }

namespace TestResults
open TestReports

/-- The results of the files of a directory. -/
def below (dir : Path) (r : TestResults) : TestResults :=
  { counts := r.counts
    reports := r.reports.map (.below dir)
    failed := r.failed.map dir.join }

/-- The reading of a file of a directory. -/
def Reading.below (dir : Path) (reading : Reading) : Reading :=
  ⟨dir.join reading.file, reading.outcome.map (.below dir)⟩

section Below
variable (dir : Path)

theorem Reading.report?_below (reading : Reading) :
    (reading.below dir).report? = reading.report?.map (.below dir) := by
  obtain ⟨file, outcome⟩ := reading
  cases outcome <;> rfl

theorem reportsOf_below (readings : List Reading) :
    reportsOf (readings.map (.below dir)) = (reportsOf readings).map (.below dir) := by
  rw [reportsOf, List.filterMap_map, reportsOf, List.map_filterMap]
  exact List.filterMap_congr fun reading _ => Reading.report?_below dir reading

theorem failedOf_below (readings : List Reading) :
    failedOf (readings.map (.below dir)) = (failedOf readings).map dir.join := by
  have hsame : (fun reading : Reading => (reading.below dir).report?.isNone) =
      fun reading => reading.report?.isNone := by
    funext reading
    rw [Reading.report?_below, Option.isNone_map]
  rw [failedOf, failedOf, List.filter_map, Function.comp_def, hsame, List.map_map, List.map_map]
  rfl

/-- The counts do not depend on where the reports are. -/
theorem ofReadings_below (readings : List Reading) :
    ofReadings (readings.map (.below dir)) = (ofReadings readings).below dir := by
  have hcounts : ((reportsOf readings).map (TestReport.below dir)).map (·.counts) =
      (reportsOf readings).map (·.counts) := by
    rw [List.map_map]
    rfl
  rw [ofReadings, reportsOf_below, failedOf_below, hcounts]
  rfl

end Below

/-- Collecting the reports of a directory gives the same under every spelling of it. -/
theorem collectIn_of_leadsTo {t : FileTree} (ht : t.Linkless) (hnames : t.WellNamed)
    {dir dir' : Path} {place : Place} (h : t.LeadsTo dir place) (h' : t.LeadsTo dir' place)
    (store : Store) :
    ∃ (saved : Store) (results : TestResults),
      (collectIn t dir store).value = (saved, results.below dir) ∧
      (collectIn t dir' store).value = (saved, results.below dir') := by
  obtain ⟨paths, hlisting, hlisting'⟩ := exists_listing ht hnames h h'
  let readings : List Reading := paths.map fun p =>
    ⟨p, (readReport t (dir.join p)).map fun report => { report with path := p }⟩
  have hcollect (d : Path) (hlisting : listing t d = .ok (paths.map d.join))
      (hread : ∀ p, t.readText? (d.join p) = t.readText? (dir.join p)) :
      (collectIn t d store).value =
        ((if reportsOf readings = [] then pure store
          else (measures (ofReadings readings).counts).foldlM Store.publish store).value,
        (ofReadings readings).below d) := by
    have hbelow : (paths.map d.join).map (fun file => (⟨file, readReport t file⟩ : Reading)) =
        readings.map (.below d) := by
      rw [List.map_map, List.map_map]
      refine List.map_congr_left fun p _ => ?_
      simp only [Function.comp, Reading.below, readReport, hread]
      cases t.readText? (dir.join p) with
      | none => rfl
      | some text =>
        cases hsuites : parseSuites text <;> simp [hsuites, Except.map, TestReport.below]
    rw [collectIn, hlisting, Except.map, hbelow, collect_ok, ofReadings_below, reportsOf_below]
    simp [below]
  refine ⟨_, _, hcollect dir hlisting fun _ => rfl, hcollect dir' hlisting' fun p => ?_⟩
  rw [FileTree.readText?, FileTree.readText?, FileTree.read?, FileTree.read?,
    h.find?_join ht h' p]

/-- In a tree without links, the path that a directory is resolved to leads to the same directory,
and the same reports are found there, unless nothing is left of the path. Then the path has led to
the working directory, and no directory is found any more. -/
theorem collectIn_resolve {t : FileTree} {base p out : Path} (ht : t.Linkless)
    (hout : Path.resolve base p = .ok out) (hdir : t.isDir (base.join p) = true) :
    (out.chars ≠ [] →
      t.isDir out = true ∧ t.locate? out = t.locate? (base.join p) ∧
        (t.WellNamed → ∀ store, ∃ (saved : Store) (results : TestResults),
          (collectIn t (base.join p) store).value = (saved, results.below (base.join p)) ∧
          (collectIn t out store).value = (saved, results.below out))) ∧
    (out.chars = [] → t.isDir out = false ∧ t.locate? (base.join p) = some t.here) := by
  obtain ⟨place, h⟩ := FileTree.isDir_iff.1 hdir
  obtain ⟨hsame, hhere⟩ := FileTree.locate?_of_isNormalForm ht (Path.resolve_eq_ok_iff.1 hout).2.2
    h.locate? h.hasDirectory
  refine ⟨fun hleft => ?_, fun hnone => ⟨?_, ?_⟩⟩
  · have h' : t.LeadsTo out place := ⟨hsame hleft, h.hasDirectory⟩
    refine ⟨FileTree.isDir_iff.2 ⟨place, h'⟩, h'.locate?.trans h.locate?.symm, ?_⟩
    exact fun hnames => collectIn_of_leadsTo ht hnames h h'
  · simp [FileTree.isDir, FileTree.find?, FileTree.locate?, hnone]
  · rw [h.locate?, hhere hnone]

/-- A directory that is left and entered again, with one report and one file that is none. -/
theorem collectIn_resolve_again :
    let markup := "<testsuite name='a' time='2'><testcase name='b'/></testsuite>".toList
    let files : List (List Char × Entry) :=
      [("TEST-b.xml".toList, .file []), ("TEST-a.xml".toList, .file (Text.Utf8.encode markup))]
    let t : FileTree := ⟨[("reports".toList, .directory files)], []⟩
    let base := Path.ofString "."
    let p := Path.ofString "reports/../reports"
    let out := Path.ofString "reports"
    (t.Linkless ∧ t.WellNamed ∧ Path.resolve base p = .ok out ∧ t.isDir (base.join p) = true) ∧
    t.isDir out = true ∧ t.locate? out = t.locate? (base.join p) ∧
      ∀ store, (∃ (saved : Store) (results : TestResults),
          (collectIn t (base.join p) store).value = (saved, results.below (base.join p)) ∧
          (collectIn t out store).value = (saved, results.below out)) ∧
        (collectIn t out store).value.2 =
          ⟨⟨1, 0, 0, 0, 2000000000⟩,
            [⟨.ofString "reports/TEST-a.xml",
              [⟨"a", ⟨1, 0, 0, 0, 2000000000⟩, [⟨"b", "", 0, .passed⟩]⟩]⟩],
            [.ofString "reports/TEST-b.xml"]⟩ := by
  intro markup files t base p out
  have hget (place : Place) (e : Entry) (h : t.get? place = some e) :
      e = .directory t.entries ∨ e = .directory files ∨ ∃ bytes, e = .file bytes := by
    cases place with
    | nil => exact .inl (Option.some.inj h).symm
    | cons name rest =>
      obtain ⟨child, hchild, h⟩ := Option.bind_eq_some_iff.1 h
      obtain ⟨-, rfl⟩ : _ ∧ child = .directory files := by
        simpa [t, Entry.children] using Entry.mem_of_lookup hchild
      cases rest with
      | nil => exact .inr (.inl (Option.some.inj h).symm)
      | cons name rest =>
        obtain ⟨child, hchild, h⟩ := Option.bind_eq_some_iff.1 h
        obtain ⟨-, rfl⟩ | ⟨-, rfl⟩ : (_ ∧ child = .file []) ∨ (_ ∧ child = .file _) := by
          simpa [files, Entry.children] using Entry.mem_of_lookup hchild
        all_goals cases rest with
          | nil => exact .inr (.inr ⟨_, (Option.some.inj h).symm⟩)
          | cons name rest => cases h
  have ht : t.Linkless := by
    intro place target h
    obtain h | h | ⟨bytes, h⟩ := hget place _ h <;> cases h
  have hnames : t.WellNamed := by
    intro place entries h name hname
    obtain h | h | ⟨bytes, h⟩ := hget place _ h <;> cases h
    · obtain rfl : name = "reports".toList := by simpa [t] using hname
      exact ⟨by decide, rfl⟩
    · obtain rfl | rfl : name = "TEST-b.xml".toList ∨ name = "TEST-a.xml".toList := by
        simpa [files] using hname
      · exact ⟨by decide, rfl⟩
      · exact ⟨by decide, rfl⟩
  have hout : Path.resolve base p = .ok out := by decide
  -- What stands in a report does not matter for where it is found.
  have hfind (bytes : List UInt8) :
      let t : FileTree := ⟨[("reports".toList, .directory
        [("TEST-b.xml".toList, .file []), ("TEST-a.xml".toList, .file bytes)])], []⟩
      t.isDir (base.join p) = true ∧
        listing t out =
          .ok [.ofString "reports/TEST-a.xml", .ofString "reports/TEST-b.xml"] ∧
        t.read? (.ofString "reports/TEST-a.xml") = some bytes ∧
        t.read? (.ofString "reports/TEST-b.xml") = some [] := by
    subst base p out
    refine ⟨?_, ?_, ?_, ?_⟩ <;> cbv
  obtain ⟨hdir, hlisting, hreport, hother⟩ := hfind (Text.Utf8.encode markup)
  have hleft := (collectIn_resolve ht hout hdir).1 (by decide)
  refine ⟨⟨ht, hnames, hout, hdir⟩, hleft.1, hleft.2.1, fun store => ⟨hleft.2.2 hnames store, ?_⟩⟩
  rw [collectIn, hlisting, Except.map, List.map_cons, List.map_singleton, readReport, readReport,
    FileTree.readText?, FileTree.readText?, hreport, hother, collect_ok]
  show ofReadings _ = _
  decide +kernel

/-- Nothing is left of a path to the working directory, and nothing is no directory. -/
theorem not_isDir_of_resolve :
    ¬ ∀ (t : FileTree) (base p out : Path), base.chars ≠ [] → t.Linkless →
      Path.resolve base p = .ok out → t.isDir (base.join p) = true → t.isDir out = true := by
  intro h
  let t : FileTree := ⟨[], []⟩
  have ht : t.Linkless := by
    intro place target h
    cases place <;> cases h
  have hdir : t.isDir (Path.ofString "./.") = true := by
    have hwalk : t.locate? (Path.ofString "./.") = some [] := by
      rw [FileTree.locate?, if_neg (by decide), FileTree.follow?_eq_walk? ht]
      rfl
    rw [FileTree.isDir, FileTree.find?, hwalk]
    rfl
  have hempty : t.isDir ⟨[]⟩ = true :=
    h t (Path.ofString ".") (Path.ofString ".") ⟨[]⟩ (by decide) ht (by decide) hdir
  cases hempty

end TestResults
end SourceGauge
