import Mathlib
import SourceGauge.Proofs.Tests.Results

/-! How the suites of a report get their counts. The attributes that have to be numbers stand in an
order. The first of them that is none is the fault of the whole report, and without one every suite
and every case has its result, in the order of the report. -/
namespace SourceGauge

/-- An attribute that has to be a number: its name, how its value is read, and the value if it is
there. -/
structure NumberAttr where
  attr : String
  read : String → Option Nat
  value : Option String

namespace NumberAttr

def count (attr : String) (value : Option String) : NumberAttr := ⟨attr, count?, value⟩

def time (value : Option String) : NumberAttr := ⟨"time", duration?, value⟩

/-- The attribute is missing or a number. -/
def IsValid (n : NumberAttr) : Prop := ∀ text, n.value = some text → n.read text ≠ none

/-- The number of the attribute is `k`, where `missing` stands for it if it is not there. -/
def Gives (n : NumberAttr) (missing k : Nat) : Prop :=
  match n.value with
  | some text => n.read text = some k
  | none => k = missing

/-- The fault of an attribute that is there and no number. -/
def bad? (n : NumberAttr) : Option BadNumber :=
  n.value.bind fun text => if n.read text = none then some ⟨n.attr, text⟩ else none

def valueOr (n : NumberAttr) (missing : Nat) : Nat := (n.value.bind n.read).getD missing

section Reading
variable {n : NumberAttr} {bad : BadNumber} {missing k : Nat}

theorem bad?_eq_some_iff : n.bad? = some bad ↔
    ∃ text, n.value = some text ∧ n.read text = none ∧ bad = ⟨n.attr, text⟩ := by
  rw [bad?, Option.bind_eq_some_iff]
  refine exists_congr fun text => and_congr_right fun _ => ?_
  split <;> simp_all [eq_comm]

theorem bad?_eq_none_iff : n.bad? = none ↔ n.IsValid := by
  rw [bad?, Option.bind_eq_none_iff]
  refine forall_congr' fun text => imp_congr_right fun _ => ?_
  split <;> simp_all

theorem gives_iff : n.Gives missing k ↔ n.IsValid ∧ n.valueOr missing = k := by
  obtain ⟨attr, read, value⟩ := n
  cases value with
  | none => simp [Gives, IsValid, valueOr, eq_comm]
  | some text => cases hread : read text <;> simp [Gives, IsValid, valueOr, hread]

theorem Gives.eq_missing (h : n.Gives missing k) (hvalue : n.value = none) : k = missing := by
  rwa [Gives, hvalue] at h

end Reading
end NumberAttr

/-- The value `a`, unless there is a fault. -/
def unlessBad {α : Type} (bad : Option BadNumber) (a : α) : Except BadNumber α :=
  match bad with
  | some bad => .error bad
  | none => .ok a

section UnlessBad
variable {α β : Type} {bad : BadNumber}

theorem unlessBad_eq_ok_iff {found : Option BadNumber} {a b : α} :
    unlessBad found a = .ok b ↔ found = none ∧ a = b := by
  cases found <;> simp [unlessBad]

theorem unlessBad_eq_error_iff {found : Option BadNumber} {a : α} :
    unlessBad found a = .error bad ↔ found = some bad := by
  cases found <;> simp [unlessBad]

/-- The fault of a reading and all that follows it is that of the reading, if it has one. -/
theorem unlessBad_bind {first second : Option BadNumber} {a : α} {b : β}
    {next : α → Except BadNumber β} (h : next a = unlessBad second b) :
    (unlessBad first a >>= next) = unlessBad (first.or second) b := by
  cases first with
  | none => exact h
  | some bad => rfl

theorem findSome?_cons_or (found : α → Option β) (x : α) (xs : List α) :
    (x :: xs).findSome? found = (found x).or (xs.findSome? found) := by
  rw [List.findSome?_cons]
  cases found x <;> rfl

theorem mapM_unlessBad (found : α → Option BadNumber) (f : α → β) (xs : List α) :
    xs.mapM (fun x => unlessBad (found x) (f x)) = unlessBad (xs.findSome? found) (xs.map f) := by
  induction xs with
  | nil => rfl
  | cons x xs ih =>
    rw [List.mapM_cons, ih, findSome?_cons_or]
    refine unlessBad_bind ?_
    cases xs.findSome? found <;> rfl

theorem numberOr_eq (n : NumberAttr) (missing : Nat) :
    numberOr n.read n.attr n.value missing = unlessBad n.bad? (n.valueOr missing) := by
  obtain ⟨attr, read, value⟩ := n
  cases value with
  | none => rfl
  | some text =>
    cases hread : read text <;>
      simp [numberOr, NumberAttr.bad?, NumberAttr.valueOr, unlessBad, hread]

theorem numberOr_bind {read : String → Option Nat} {attr : String} {value : Option String}
    {missing : Nat} {second : Option BadNumber} {b : β} {next : Nat → Except BadNumber β}
    (h : next ((NumberAttr.mk attr read value).valueOr missing) = unlessBad second b) :
    (numberOr read attr value missing >>= next) =
      unlessBad ((NumberAttr.mk attr read value).bad?.or second) b := by
  rw [numberOr_eq ⟨attr, read, value⟩]
  exact unlessBad_bind h

end UnlessBad

/-- Two lists are related element by element if the second one is the image of the first, and the
first holds only elements that have an image. -/
theorem forall₂_iff_map {α β : Type} {r : α → β → Prop} {q : α → Prop} {f : α → β}
    (h : ∀ a b, r a b ↔ q a ∧ f a = b) {xs : List α} {ys : List β} :
    List.Forall₂ r xs ys ↔ (∀ x ∈ xs, q x) ∧ xs.map f = ys := by
  have hr : r = fun a b => q a ∧ f a = b := by
    funext a b
    exact propext (h a b)
  rw [hr, List.forall₂_and_left, ← List.forall₂_map_left_iff (R := Eq), List.forall₂_eq_eq_eq]

namespace WrittenCase

/-- What a case of a report says of the test. -/
structure Describes (c : WrittenCase) (test : TestCase) : Prop where
  name : test.name = c.name.getD ""
  className : test.className = c.className.getD ""
  duration : (NumberAttr.time c.time).Gives 0 test.duration
  errored : test.status = .errored ↔ c.error = true
  failed : test.status = .failed ↔ c.error = false ∧ c.failure = true
  skipped : test.status = .skipped ↔ c.error = false ∧ c.failure = false ∧ c.skipped = true
  passed : test.status = .passed ↔ c.error = false ∧ c.failure = false ∧ c.skipped = false

/-- The test of a case, where a time that is no number counts as none. -/
def test (c : WrittenCase) : TestCase :=
  ⟨c.name.getD "", c.className.getD "", (NumberAttr.time c.time).valueOr 0, c.status⟩

theorem toCase_eq (c : WrittenCase) :
    c.toCase = unlessBad (NumberAttr.time c.time).bad? c.test := by
  rw [toCase, ← Option.or_none (o := (NumberAttr.time c.time).bad?)]
  exact numberOr_bind rfl

theorem status_eq_iff (c : WrittenCase) (status : TestStatus) : status = c.status ↔
    (status = .errored ↔ c.error = true) ∧
    (status = .failed ↔ c.error = false ∧ c.failure = true) ∧
    (status = .skipped ↔ c.error = false ∧ c.failure = false ∧ c.skipped = true) ∧
    (status = .passed ↔ c.error = false ∧ c.failure = false ∧ c.skipped = false) := by
  unfold WrittenCase.status
  cases c.error <;> cases c.failure <;> cases c.skipped <;> cases status <;> decide

theorem describes_iff (c : WrittenCase) (test : TestCase) :
    c.Describes test ↔ (NumberAttr.time c.time).IsValid ∧ c.test = test := by
  constructor
  · rintro ⟨hname, hclass, hduration, herrored, hfailed, hskipped, hpassed⟩
    obtain ⟨hvalid, hvalue⟩ := NumberAttr.gives_iff.1 hduration
    have hstatus := (c.status_eq_iff test.status).2 ⟨herrored, hfailed, hskipped, hpassed⟩
    refine ⟨hvalid, ?_⟩
    rw [WrittenCase.test, ← hname, ← hclass, hvalue, ← hstatus]
  · rintro ⟨hvalid, rfl⟩
    obtain ⟨herrored, hfailed, hskipped, hpassed⟩ := (c.status_eq_iff c.status).1 rfl
    exact ⟨rfl, rfl, NumberAttr.gives_iff.2 ⟨hvalid, rfl⟩, herrored, hfailed, hskipped, hpassed⟩

end WrittenCase

namespace WrittenSuite

/-- The attributes of a suite that have to be numbers, in the order in which they are read. -/
def numbers (s : WrittenSuite) : List NumberAttr :=
  s.cases.map (fun c => NumberAttr.time c.time) ++
    [NumberAttr.count "tests" s.tests, NumberAttr.count "failures" s.failures,
      NumberAttr.count "errors" s.errors, NumberAttr.count "skipped" s.skipped,
      NumberAttr.time s.time]

/-- What a suite of a report says of the tests in it. -/
structure Describes (s : WrittenSuite) (suite : TestSuite) : Prop where
  name : suite.name = s.name.getD ""
  cases : List.Forall₂ WrittenCase.Describes s.cases suite.cases
  tests : (NumberAttr.count "tests" s.tests).Gives suite.cases.length suite.counts.tests
  failures : (NumberAttr.count "failures" s.failures).Gives
    (suite.cases.countP (·.status = .failed)) suite.counts.failures
  errors : (NumberAttr.count "errors" s.errors).Gives
    (suite.cases.countP (·.status = .errored)) suite.counts.errors
  skipped : (NumberAttr.count "skipped" s.skipped).Gives
    (suite.cases.countP (·.status = .skipped)) suite.counts.skipped
  duration : (NumberAttr.time s.time).Gives
    (min ((2 ^ 64 - 1) * 10 ^ 9 + 999999999) (suite.cases.map (·.duration)).sum)
    suite.counts.duration

/-- The suite that is described, where values that are no numbers count as none. -/
def suite (s : WrittenSuite) : TestSuite :=
  let cases := s.cases.map WrittenCase.test
  let withStatus (status : TestStatus) : Nat := cases.countP (·.status = status)
  { name := s.name.getD ""
    counts :=
      { tests := (NumberAttr.count "tests" s.tests).valueOr cases.length
        failures := (NumberAttr.count "failures" s.failures).valueOr (withStatus .failed)
        errors := (NumberAttr.count "errors" s.errors).valueOr (withStatus .errored)
        skipped := (NumberAttr.count "skipped" s.skipped).valueOr (withStatus .skipped)
        duration := (NumberAttr.time s.time).valueOr (casesDuration cases) }
    cases }

theorem casesDuration_eq (cases : List TestCase) : casesDuration cases =
    min ((2 ^ 64 - 1) * 10 ^ 9 + 999999999) (cases.map (·.duration)).sum := by
  have hsum := foldl_addUpTo (Nat.zero_le maxDuration) (cases.map (·.duration))
  rw [List.foldl_map, Nat.zero_add] at hsum
  exact hsum

theorem findSome?_numbers (s : WrittenSuite) : s.numbers.findSome? NumberAttr.bad? =
    (s.cases.findSome? fun c => (NumberAttr.time c.time).bad?).or
      ((NumberAttr.count "tests" s.tests).bad?.or
        ((NumberAttr.count "failures" s.failures).bad?.or
          ((NumberAttr.count "errors" s.errors).bad?.or
            ((NumberAttr.count "skipped" s.skipped).bad?.or
              ((NumberAttr.time s.time).bad?.or none))))) := by
  rw [numbers, List.findSome?_append, List.findSome?_map]
  simp only [findSome?_cons_or, List.findSome?_nil]
  rfl

theorem toSuite_eq (s : WrittenSuite) :
    s.toSuite = unlessBad (s.numbers.findSome? NumberAttr.bad?) s.suite := by
  rw [toSuite, funext WrittenCase.toCase_eq, mapM_unlessBad, findSome?_numbers]
  refine unlessBad_bind ?_
  refine numberOr_bind ?_
  refine numberOr_bind ?_
  refine numberOr_bind ?_
  refine numberOr_bind ?_
  exact numberOr_bind rfl

theorem toSuites_eq (suites : List WrittenSuite) : toSuites suites =
    unlessBad ((suites.flatMap numbers).findSome? NumberAttr.bad?) (suites.map suite) := by
  rw [toSuites, funext toSuite_eq, mapM_unlessBad]
  congr 1
  induction suites with
  | nil => rfl
  | cons s suites ih =>
    rw [List.flatMap_cons, List.findSome?_append, findSome?_cons_or, ih]

theorem numbers_valid_iff (s : WrittenSuite) : (∀ n ∈ s.numbers, n.IsValid) ↔
    (∀ c ∈ s.cases, (NumberAttr.time c.time).IsValid) ∧
      (NumberAttr.count "tests" s.tests).IsValid ∧
      (NumberAttr.count "failures" s.failures).IsValid ∧
      (NumberAttr.count "errors" s.errors).IsValid ∧
      (NumberAttr.count "skipped" s.skipped).IsValid ∧ (NumberAttr.time s.time).IsValid := by
  simp [numbers, or_imp, forall_and]

theorem describes_iff (s : WrittenSuite) (suite : TestSuite) :
    s.Describes suite ↔ (∀ n ∈ s.numbers, n.IsValid) ∧ s.suite = suite := by
  rw [numbers_valid_iff]
  constructor
  · rintro ⟨hname, hcases, htests, hfailures, herrors, hskipped, hduration⟩
    rw [forall₂_iff_map WrittenCase.describes_iff] at hcases
    rw [NumberAttr.gives_iff] at htests hfailures herrors hskipped hduration
    refine ⟨⟨hcases.1, htests.1, hfailures.1, herrors.1, hskipped.1, hduration.1⟩, ?_⟩
    rw [WrittenSuite.suite, hcases.2, casesDuration_eq, htests.2, hfailures.2, herrors.2,
      hskipped.2, hduration.2, ← hname]
  · rintro ⟨⟨hcases, htests, hfailures, herrors, hskipped, hduration⟩, rfl⟩
    refine ⟨rfl, (forall₂_iff_map WrittenCase.describes_iff).2 ⟨hcases, rfl⟩,
      NumberAttr.gives_iff.2 ⟨htests, rfl⟩, NumberAttr.gives_iff.2 ⟨hfailures, rfl⟩,
      NumberAttr.gives_iff.2 ⟨herrors, rfl⟩, NumberAttr.gives_iff.2 ⟨hskipped, rfl⟩,
      NumberAttr.gives_iff.2 ⟨hduration, ?_⟩⟩
    rw [← casesDuration_eq]
    rfl

end WrittenSuite

/-- No case has two of the statuses that are counted. -/
theorem countP_status_le (cases : List TestCase) :
    cases.countP (·.status = .failed) + cases.countP (·.status = .errored) +
      cases.countP (·.status = .skipped) ≤ cases.length := by
  induction cases with
  | nil => exact Nat.le_refl 0
  | cons c cases ih =>
    simp only [List.countP_cons, List.length_cons]
    cases c.status <;> simp <;> omega

namespace ReportMarkup

theorem read_ne_invalidNumber (events : List Markup.Event) (bad : BadNumber) :
    read events ≠ .error (.invalidNumber bad) := by
  unfold read
  split
  · simp
  · simp
  · dsimp only
    split <;> simp

end ReportMarkup

/-- A document gives suites if it holds some as written and these have their numbers. -/
theorem parseSuites_eq_ok_iff {text : List Char} {result : List TestSuite} :
    parseSuites text = .ok result ↔ ∃ suites,
      ReportMarkup.read (Markup.events text) = .ok suites ∧
        WrittenSuite.toSuites suites = .ok result := by
  unfold parseSuites
  cases ReportMarkup.read (Markup.events text) with
  | error e => simp [bind, Except.bind]
  | ok suites =>
    cases hsuites : WrittenSuite.toSuites suites <;>
      simp [bind, Except.bind, pure, Except.pure, throw, throwThe, MonadExceptOf.throw, hsuites]

theorem parseSuites_eq_invalidNumber_iff {text : List Char} {bad : BadNumber} :
    parseSuites text = .error (.invalidNumber bad) ↔ ∃ suites,
      ReportMarkup.read (Markup.events text) = .ok suites ∧
        WrittenSuite.toSuites suites = .error bad := by
  have hread := ReportMarkup.read_ne_invalidNumber (Markup.events text) bad
  unfold parseSuites
  cases hevents : ReportMarkup.read (Markup.events text) with
  | error e => simp_all [bind, Except.bind]
  | ok suites =>
    cases hsuites : WrittenSuite.toSuites suites <;>
      simp [bind, Except.bind, pure, Except.pure, throw, throwThe, MonadExceptOf.throw, hsuites]

/-- Reading the suites of a report gives all of them or none. The fault is the first of their
attributes that is there and no number, with its value as it is written, in the order of the suites,
and in a suite that of the times of its cases, then tests, failures, errors, skipped and time.
Without one, every suite and every case of the report is described in its place. If no count is
written in a suite, its failures, errors and skipped tests are not more than its tests. -/
theorem parseSuites_described :
    (∀ suites bad, WrittenSuite.toSuites suites = .error bad ↔
      ∃ (before : List NumberAttr) (n : NumberAttr) (after : List NumberAttr) (text : String),
        suites.flatMap WrittenSuite.numbers = before ++ n :: after ∧
        (∀ m ∈ before, m.IsValid) ∧ n.value = some text ∧ n.read text = none ∧
        bad = ⟨n.attr, text⟩) ∧
    (∀ suites result, WrittenSuite.toSuites suites = .ok result ↔
      List.Forall₂ WrittenSuite.Describes suites result) ∧
    (∀ suites, (∃ result, WrittenSuite.toSuites suites = .ok result) ↔
      ∀ n ∈ suites.flatMap WrittenSuite.numbers, n.IsValid) ∧
    (∀ text bad, parseSuites text = .error (.invalidNumber bad) ↔ ∃ suites,
      ReportMarkup.read (Markup.events text) = .ok suites ∧
        WrittenSuite.toSuites suites = .error bad) ∧
    (∀ text result, parseSuites text = .ok result ↔ ∃ suites,
      ReportMarkup.read (Markup.events text) = .ok suites ∧
        WrittenSuite.toSuites suites = .ok result) ∧
    ∀ (s : WrittenSuite) (suite : TestSuite), s.Describes suite →
      s.tests = none → s.failures = none → s.errors = none → s.skipped = none →
        suite.counts.failures + suite.counts.errors + suite.counts.skipped ≤ suite.counts.tests := by
  refine ⟨fun suites bad => ?_, fun suites result => ?_, fun suites => ?_,
    fun text bad => parseSuites_eq_invalidNumber_iff, fun text result => parseSuites_eq_ok_iff, ?_⟩
  · rw [WrittenSuite.toSuites_eq, unlessBad_eq_error_iff, List.findSome?_eq_some_iff]
    simp only [NumberAttr.bad?_eq_some_iff, NumberAttr.bad?_eq_none_iff]
    constructor
    · rintro ⟨before, n, after, hsplit, ⟨text, hvalue, hread, hbad⟩, hbefore⟩
      exact ⟨before, n, after, text, hsplit, hbefore, hvalue, hread, hbad⟩
    · rintro ⟨before, n, after, text, hsplit, hbefore, hvalue, hread, hbad⟩
      exact ⟨before, n, after, hsplit, ⟨text, hvalue, hread, hbad⟩, hbefore⟩
  · rw [WrittenSuite.toSuites_eq, unlessBad_eq_ok_iff, forall₂_iff_map WrittenSuite.describes_iff,
      List.findSome?_eq_none_iff]
    simp only [NumberAttr.bad?_eq_none_iff, List.forall_mem_flatMap]
  · simp only [WrittenSuite.toSuites_eq, unlessBad_eq_ok_iff, List.findSome?_eq_none_iff,
      NumberAttr.bad?_eq_none_iff]
    exact ⟨fun ⟨result, hvalid, hresult⟩ => hvalid, fun hvalid => ⟨_, hvalid, rfl⟩⟩
  · intro s suite h htests hfailures herrors hskipped
    have hcounts := countP_status_le suite.cases
    rw [h.tests.eq_missing htests, h.failures.eq_missing hfailures, h.errors.eq_missing herrors,
      h.skipped.eq_missing hskipped]
    exact hcounts

/-- A case with two outcomes counts once, and the time of a later case is the fault before the
number of tests in its suite. Numbers that are there count as written, with a comma and blanks, and
the times of cases are added up where their suite has none. -/
theorem parseSuites_described_late_fault :
    let first : WrittenSuite := ⟨some "a", none, none, none, none, none,
      [⟨none, none, none, true, true, true⟩, ⟨none, none, none, false, false, false⟩]⟩
    let second : WrittenSuite := ⟨some "b", some "many", none, none, none, none,
      [⟨none, none, some "soon", false, false, true⟩]⟩
    let third : WrittenSuite := ⟨some "c", some "4", none, none, some " 1 ", some "1,000.5",
      [⟨some "d", none, some "0.5", true, false, false⟩]⟩
    let fourth : WrittenSuite := ⟨some "e", none, none, none, none, none,
      [⟨none, none, some "0.5", false, false, true⟩,
        ⟨none, none, some "0.25", false, false, false⟩]⟩
    let suite : TestSuite := ⟨"a", { tests := 2, errors := 1 },
      [⟨"", "", 0, .errored⟩, ⟨"", "", 0, .passed⟩]⟩
    WrittenSuite.toSuites [first, second] = .error ⟨"time", "soon"⟩ ∧
      (first.Describes suite ∧ first.tests = none ∧ first.failures = none ∧ first.errors = none ∧
        first.skipped = none) ∧
      suite.counts.failures + suite.counts.errors + suite.counts.skipped ≤ suite.counts.tests ∧
      third.Describes ⟨"c", ⟨4, 1, 0, 1, 1000500000000⟩, [⟨"d", "", 500000000, .failed⟩]⟩ ∧
      fourth.Describes ⟨"e", ⟨2, 0, 0, 1, 750000000⟩,
        [⟨"", "", 500000000, .skipped⟩, ⟨"", "", 250000000, .passed⟩]⟩ := by
  intro first second third fourth suite
  obtain ⟨hbad, hok, -, -, -, hle⟩ := parseSuites_described
  have hfirst : ∀ n ∈ first.numbers, n.IsValid := by
    simp [first, WrittenSuite.numbers, NumberAttr.count, NumberAttr.time, NumberAttr.IsValid]
  have hdescribes : first.Describes suite :=
    (List.forall₂_cons.1 ((hok [first] [suite]).1 rfl)).1
  have hlater : List.Forall₂ WrittenSuite.Describes [third, fourth]
      [⟨"c", ⟨4, 1, 0, 1, 1000500000000⟩, [⟨"d", "", 500000000, .failed⟩]⟩,
        ⟨"e", ⟨2, 0, 0, 1, 750000000⟩,
          [⟨"", "", 500000000, .skipped⟩, ⟨"", "", 250000000, .passed⟩]⟩] :=
    (hok _ _).1 (by decide +kernel)
  obtain ⟨hthird, hrest⟩ := List.forall₂_cons.1 hlater
  refine ⟨(hbad _ _).2 ⟨first.numbers, .time (some "soon"), _, "soon", rfl, hfirst, rfl, ?_, rfl⟩,
    ⟨hdescribes, rfl, rfl, rfl, rfl⟩, hle first suite hdescribes rfl rfl rfl rfl, hthird,
    (List.forall₂_cons.1 hrest).1⟩
  cbv

end SourceGauge
