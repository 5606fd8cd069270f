import Mathlib
import SourceGauge.Config.Load
import SourceGauge.Proofs.Toml.Keys

/-! Layers of configuration. Each field of a merged configuration comes from the last file content
that gives a valid value for it, whatever else stands in that content or in the others. -/
namespace SourceGauge
open Toml (Table Value KeysOnce)

namespace Logged

theorem value_foldlM {α β : Type} (f : β → α → Logged β) (xs : List α) (b : β) :
    (xs.foldlM f b).value = xs.foldl (fun b x => (f b x).value) b := by
  induction xs generalizing b with
  | nil => rfl
  | cons x xs ih => rw [List.foldlM_cons, value_bind, ih, List.foldl_cons]

end Logged

/-- The value is that of the last content that gives one. If none does, it is the base value. -/
def LastGiven {α : Type} (gives : List Char → α → Prop) (contents : List (List Char))
    (base x : α) : Prop :=
  (∃ earlier content later, contents = earlier ++ content :: later ∧ gives content x ∧
    ∀ other ∈ later, ∀ y, ¬ gives other y) ∨
  (x = base ∧ ∀ content ∈ contents, ∀ y, ¬ gives content y)

section LastGiven
variable {α : Type} {gives : List Char → α → Prop} {contents : List (List Char)}
  {content : List Char} {base x : α}

theorem lastGiven_nil : LastGiven gives [] base base := .inr ⟨rfl, List.forall_mem_nil _⟩

theorem LastGiven.concat_given (h : gives content x) :
    LastGiven gives (contents ++ [content]) base x :=
  .inl ⟨contents, content, [], rfl, h, List.forall_mem_nil _⟩

theorem LastGiven.concat_silent (hcontent : ∀ y, ¬ gives content y)
    (h : LastGiven gives contents base x) : LastGiven gives (contents ++ [content]) base x := by
  rcases h with ⟨earlier, first, later, rfl, hgiven, hlater⟩ | ⟨hx, hsilent⟩
  · refine .inl ⟨earlier, first, later ++ [content], by simp, hgiven, fun other hother => ?_⟩
    rcases List.mem_append.1 hother with hother | hother
    · exact hlater other hother
    · rwa [List.mem_singleton.1 hother]
  · refine .inr ⟨hx, fun other hother => ?_⟩
    rcases List.mem_append.1 hother with hother | hother
    · exact hsilent other hother
    · rwa [List.mem_singleton.1 hother]

/-- One more content replaces the value if it gives one. -/
theorem LastGiven.concat {given : Option α} (hgiven : ∀ y, gives content y ↔ given = some y)
    (h : LastGiven gives contents base x) :
    LastGiven gives (contents ++ [content]) base (given.getD x) := by
  cases given with
  | none => exact h.concat_silent fun y hy => Option.some_ne_none y ((hgiven y).1 hy).symm
  | some y => exact .concat_given ((hgiven y).2 rfl)

end LastGiven

namespace Config

/-- The content is a document, and this value stands in it under a key of a section. -/
def Says (content : List Char) (place key : String) (v : Value) : Prop :=
  ∃ document table, Toml.parse? content = some document ∧
    document.lookup place = some (.table table) ∧ table.lookup key = some v

/-- A string that names an encoding. -/
def GivesEncoding (content : List Char) (e : Text.Encoding) : Prop :=
  ∃ name, Says content "sources" "encoding" (.string name) ∧ Text.Encoding.ofName? name = some e

/-- An array of strings only. -/
def GivesTestDirs (content : List Char) (dirs : List String) : Prop :=
  Says content "sources" "test_dirs" (.array (dirs.map .string))

/-- Bounds for a distribution: at least one, each above the one before it. -/
structure AreLimits (limits : List Nat) : Prop where
  ne_nil : limits ≠ []
  increasing : limits.Pairwise (· < ·)

/-- An array of integers from 0 to 2³² - 1, not empty and strictly increasing. -/
def GivesLimits (content : List Char) (limits : List Nat) : Prop :=
  Says content "complexity" "function_limits" (.array (limits.map fun n : Nat => .integer n)) ∧
    AreLimits limits ∧ ∀ n ∈ limits, n < 2 ^ 32

/-- A string under the key. -/
def GivesSetting (key : String) (content : List Char) (setting : Option String) : Prop :=
  ∃ s, setting = some s ∧ Says content "settings" key (.string s)

/-- The configuration comes field by field from the last of the contents that gives a valid value,
or from the base configuration. -/
structure LayeredOn (base : Config) (contents : List (List Char)) (c : Config) : Prop where
  encoding : LastGiven GivesEncoding contents base.encoding c.encoding
  testDirs : LastGiven GivesTestDirs contents base.testDirs c.testDirs
  functionLimits : LastGiven GivesLimits contents base.functionLimits c.functionLimits
  settings : ∀ key, LastGiven (GivesSetting key) contents (base.settings.get? key)
    (c.settings.get? key)

/-- The contents merged into a configuration one after the other. -/
def mergeAll (base : Config) (contents : List (List Char)) : Logged Config :=
  contents.foldlM mergeText base

section Reading
variable {content : List Char}

/-- The table of a section, if the content is a document that has one. -/
def section? (content : List Char) (place : String) : Option Table :=
  (Toml.parse? content).bind fun document => (document.lookup place).bind Value.table?

/-- The entries of the settings section, none if the content has no such section. -/
def settingEntries (content : List Char) : Table := (section? content "settings").getD []

def encoding? (table : Table) : Option Text.Encoding :=
  ((table.lookup "encoding").bind Value.string?).bind Text.Encoding.ofName?

def testDirs? (table : Table) : Option (List String) :=
  (table.lookup "test_dirs").bind fun v => v.array?.bind (·.mapM Value.string?)

def limits? (table : Table) : Option (List Nat) :=
  ((table.lookup "function_limits").bind fun v => v.array?.bind (·.mapM bound?)).filter
    fun limits => !limits.isEmpty && strictlyIncreasing limits

/-- Sets what an entry of the settings section says, unless it is no string. -/
def setEntry (settings : Settings) (e : String × Value) : Settings :=
  match e.2.string? with
  | some s => settings.set e.1 s
  | none => settings

theorem getString_value (table : Table) (key : String) :
    (getString table key).value = (table.lookup key).bind Value.string? := by
  unfold getString
  split
  case h_1 h => rw [h]; rfl
  case h_2 s h => rw [h]; rfl
  case h_3 v hstring h =>
    rw [h]
    cases v with
    | string s => exact (hstring s rfl).elim
    | _ => rfl

theorem getList_value {α : Type} (item : Value → Option α) (kind : String) (table : Table)
    (key : String) : (getList item kind table key).value =
      (table.lookup key).bind fun v => v.array?.bind (·.mapM item) := by
  unfold getList
  split
  case h_1 h => rw [h]; rfl
  case h_2 v h =>
    rw [h, Option.bind_some]
    split
    case h_1 xs hxs => rw [hxs]; rfl
    case h_2 hxs => rw [hxs]; rfl

theorem applySources_value (c : Config) (table : Table) :
    (applySources c table).value =
      { c with
        encoding := (encoding? table).getD c.encoding
        testDirs := (testDirs? table).getD c.testDirs } := by
  have hdirs := getList_value Value.string? "strings" table "test_dirs"
  rw [← testDirs?] at hdirs
  simp only [applySources, Logged.value_bind, getString_value, encoding?]
  cases (table.lookup "encoding").bind Value.string? with
  | none =>
    simp only [Logged.value_bind, hdirs]
    cases testDirs? table <;> rfl
  | some name =>
    dsimp only [Option.bind_some]
    cases Text.Encoding.ofName? name <;>
      simp only [Logged.value_bind, hdirs] <;> cases testDirs? table <;> rfl

theorem applyComplexity_value (c : Config) (table : Table) :
    (applyComplexity c table).value =
      { c with functionLimits := (limits? table).getD c.functionLimits } := by
  have hlist := getList_value bound? "non-negative integers" table "function_limits"
  simp only [applyComplexity, Logged.value_bind, hlist, limits?]
  cases (table.lookup "function_limits").bind fun v => v.array?.bind (·.mapM bound?) with
  | none => rfl
  | some limits =>
    by_cases hempty : limits.isEmpty = true <;>
      by_cases hincreasing : strictlyIncreasing limits = true <;>
      simp [Option.filter, hempty, hincreasing]

theorem applySetting_value (c : Config) (key : String) (v : Value) :
    (c.applySetting key v).value = { c with settings := setEntry c.settings (key, v) } := by
  cases v <;> rfl

theorem applySettings_value (c : Config) (table : Table) :
    (applySettings c table).value = { c with settings := table.foldl setEntry c.settings } := by
  rw [applySettings, Logged.value_foldlM]
  induction table generalizing c with
  | nil => rfl
  | cons e table ih => rw [List.foldl_cons, ih, applySetting_value, List.foldl_cons]

theorem applySection_value (document : Table) (place : String)
    (apply : Config → Table → Logged Config) (c : Config) :
    (applySection document place apply c).value =
      (((document.lookup place).bind Value.table?).map fun table =>
        (apply c table).value).getD c := by
  unfold applySection
  cases (document.lookup place).bind Value.table? <;> rfl

/-- What one content does to each field. -/
theorem mergeText_value (c : Config) (content : List Char) :
    (c.mergeText content).value =
      { encoding := ((section? content "sources").bind encoding?).getD c.encoding
        testDirs := ((section? content "sources").bind testDirs?).getD c.testDirs
        functionLimits := ((section? content "complexity").bind limits?).getD c.functionLimits
        settings := (settingEntries content).foldl setEntry c.settings } := by
  unfold mergeText settingEntries section?
  cases Toml.parse? content with
  | none => rfl
  | some document =>
    simp only [mergeTable, Logged.value_bind, applySection_value, applySources_value,
      applyComplexity_value, applySettings_value, Option.bind_some]
    cases (document.lookup "sources").bind Value.table? <;>
      cases (document.lookup "complexity").bind Value.table? <;>
      cases (document.lookup "settings").bind Value.table? <;> rfl

/-- The wrong test directories leave the encoding alone. -/
example : (mergeText default "[sources]\nencoding = \"latin1\"\ntest_dirs = [1]".toList).value =
    { default with encoding := .latin1 } := by cbv

end Reading

section Gives
variable {content : List Char}

theorem string?_eq_some_iff {v : Value} {s : String} : v.string? = some s ↔ v = .string s := by
  cases v <;> simp [Value.string?]

theorem array?_eq_some_iff {v : Value} {items : List Value} :
    v.array? = some items ↔ v = .array items := by
  cases v <;> simp [Value.array?]

theorem table?_eq_some_iff {v : Value} {table : Table} :
    v.table? = some table ↔ v = .table table := by
  cases v <;> simp [Value.table?]

theorem bound?_eq_some_iff {v : Value} {n : Nat} :
    bound? v = some n ↔ v = .integer n ∧ n < 2 ^ 32 := by
  cases v with
  | integer i =>
    simp only [bound?, Value.integer?, Option.bind_some, Option.ite_none_right_eq_some,
      Option.some.injEq, Value.integer.injEq]
    omega
  | _ => simp [bound?, Value.integer?]

theorem says_iff {place key : String} {v : Value} :
    Says content place key v ↔ (section? content place).bind (·.lookup key) = some v := by
  simp only [Says, section?, Option.bind_eq_some_iff, table?_eq_some_iff]
  constructor
  · rintro ⟨document, table, hparse, hplace, hkey⟩
    exact ⟨table, ⟨document, hparse, _, hplace, rfl⟩, hkey⟩
  · rintro ⟨table, ⟨document, hparse, _, hplace, rfl⟩, hkey⟩
    exact ⟨document, table, hparse, hplace, hkey⟩

/-- All items of an array are read when each of them is written in the right form. -/
theorem mapM_eq_some_iff {α : Type} {item : Value → Option α} {make : α → Value} {q : α → Prop}
    (hitem : ∀ v x, item v = some x ↔ v = make x ∧ q x) {items : List Value} {xs : List α} :
    items.mapM item = some xs ↔ items = xs.map make ∧ ∀ x ∈ xs, q x := by
  induction items generalizing xs with
  | nil => cases xs <;> simp
  | cons v items ih =>
    rw [List.mapM_cons]
    simp only [Option.bind_eq_bind, Option.bind_eq_some_iff, hitem, ih, Option.pure_def,
      Option.some.injEq]
    constructor
    · rintro ⟨x, ⟨rfl, hx⟩, xs, ⟨rfl, hxs⟩, rfl⟩
      exact ⟨rfl, List.forall_mem_cons.2 ⟨hx, hxs⟩⟩
    · rintro ⟨hmap, hall⟩
      cases xs with
      | nil => cases hmap
      | cons x xs =>
        obtain ⟨rfl, rfl⟩ := List.cons.inj hmap
        obtain ⟨hx, hxs⟩ := List.forall_mem_cons.1 hall
        exact ⟨x, ⟨rfl, hx⟩, xs, ⟨rfl, hxs⟩, rfl⟩

theorem strictlyIncreasing_iff (limits : List Nat) :
    strictlyIncreasing limits = true ↔ limits.Pairwise (· < ·) := by
  rw [← List.isChain_iff_pairwise]
  induction limits using strictlyIncreasing.induct with
  | case1 a b rest ih => simp [strictlyIncreasing, ih]
  | case2 limits hshort =>
    cases limits with
    | nil => simp [strictlyIncreasing]
    | cons a rest =>
      cases rest with
      | nil => simp [strictlyIncreasing]
      | cons b rest => exact (hshort a b rest rfl).elim

theorem givesEncoding_iff (e : Text.Encoding) :
    GivesEncoding content e ↔ (section? content "sources").bind encoding? = some e := by
  simp only [GivesEncoding, says_iff, encoding?, Option.bind_eq_some_iff, string?_eq_some_iff]
  constructor
  · rintro ⟨name, ⟨table, hsection, hkey⟩, hname⟩
    exact ⟨table, hsection, name, ⟨_, hkey, rfl⟩, hname⟩
  · rintro ⟨table, hsection, name, ⟨_, hkey, rfl⟩, hname⟩
    exact ⟨name, ⟨table, hsection, hkey⟩, hname⟩

theorem givesTestDirs_iff (dirs : List String) :
    GivesTestDirs content dirs ↔ (section? content "sources").bind testDirs? = some dirs := by
  have hitems (items : List Value) :
      items.mapM Value.string? = some dirs ↔ items = dirs.map .string := by
    simpa using mapM_eq_some_iff (q := fun _ => True) (fun v s => by simp [string?_eq_some_iff])
  simp only [GivesTestDirs, says_iff, testDirs?, Option.bind_eq_some_iff, array?_eq_some_iff,
    hitems]
  constructor
  · rintro ⟨table, hsection, hkey⟩
    exact ⟨table, hsection, _, hkey, _, rfl, rfl⟩
  · rintro ⟨table, hsection, _, hkey, _, rfl, rfl⟩
    exact ⟨table, hsection, hkey⟩

theorem givesLimits_iff (limits : List Nat) :
    GivesLimits content limits ↔ (section? content "complexity").bind limits? = some limits := by
  have hitems (items : List Value) : items.mapM bound? = some limits ↔
      items = limits.map (fun n : Nat => .integer n) ∧ ∀ n ∈ limits, n < 2 ^ 32 :=
    mapM_eq_some_iff fun v n => bound?_eq_some_iff
  have hvalid : (!limits.isEmpty && strictlyIncreasing limits) = true ↔ AreLimits limits := by
    rw [Bool.and_eq_true, strictlyIncreasing_iff]
    constructor
    · rintro ⟨hne, hincreasing⟩
      exact ⟨by simpa using hne, hincreasing⟩
    · rintro ⟨hne, hincreasing⟩
      exact ⟨by simpa using hne, hincreasing⟩
  simp only [GivesLimits, says_iff, limits?, Option.bind_eq_some_iff, array?_eq_some_iff,
    Option.filter_eq_some_iff, hitems, hvalid]
  constructor
  · rintro ⟨⟨table, hsection, hkey⟩, hlimits, hbound⟩
    exact ⟨table, hsection, ⟨_, hkey, _, rfl, rfl, hbound⟩, hlimits⟩
  · rintro ⟨table, hsection, ⟨_, hkey, _, rfl, rfl, hbound⟩, hlimits⟩
    exact ⟨⟨table, hsection, hkey⟩, hlimits, hbound⟩

end Gives

section Settings

theorem lookup_of_mem {table : Table} (h : KeysOnce table) {e : String × Value} (he : e ∈ table) :
    table.lookup e.1 = some e.2 := by
  obtain ⟨before, after, rfl⟩ := List.append_of_mem he
  refine List.lookup_eq_some_iff.2 ⟨before, after, rfl, fun first hfirst => ?_⟩
  rw [KeysOnce, List.map_append, List.nodup_append] at h
  have hne := h.2.2 first.1 (List.mem_map_of_mem hfirst) e.1 List.mem_cons_self
  simpa using Ne.symm hne

theorem get?_setEntry (settings : Settings) (e : String × Value) (key : String) :
    (setEntry settings e).get? key =
      if key = e.1 then e.2.string?.or (settings.get? key) else settings.get? key := by
  unfold setEntry
  cases e.2.string? <;> simp

theorem get?_foldl_setEntry {table : Table} (h : KeysOnce table) (settings : Settings)
    (key : String) : (table.foldl setEntry settings).get? key =
      ((table.lookup key).bind Value.string?).or (settings.get? key) := by
  induction table generalizing settings with
  | nil => rfl
  | cons e table ih =>
    obtain ⟨he, htable⟩ := List.nodup_cons.1 h
    rw [List.foldl_cons, ih htable, get?_setEntry]
    by_cases hkey : key = e.1
    · subst hkey
      have hnone : table.lookup e.1 = none := by
        refine List.lookup_eq_none_iff.2 fun other hother => ?_
        have hne : e.1 ≠ other.1 := fun heq => he (heq ▸ List.mem_map_of_mem hother)
        simpa using hne
      rw [if_pos rfl, hnone, List.lookup_cons_self]
      rfl
    · rw [if_neg hkey, List.lookup_cons, beq_eq_false_iff_ne.2 hkey]

theorem set_eq_self {settings : Settings} {key s : String} (h : settings.get? key = some s) :
    settings.set key s = settings := by
  have hput (entries : List (String × String)) (h : entries.lookup key = some s) :
      Settings.put key s entries = entries := by
    induction entries with
    | nil => cases h
    | cons e entries ih =>
      obtain ⟨k, old⟩ := e
      by_cases hk : k = key
      · subst hk
        rw [List.lookup_cons_self, Option.some.injEq] at h
        rw [Settings.put, if_pos rfl, h]
      · rw [List.lookup_cons, beq_eq_false_iff_ne.2 (Ne.symm hk)] at h
        rw [Settings.put, if_neg hk, ih h]
  rw [Settings.set, hput settings.entries h]

theorem foldl_setEntry_eq_self {table : Table} {settings : Settings}
    (h : ∀ e ∈ table, ∀ s, e.2.string? = some s → settings.get? e.1 = some s) :
    table.foldl setEntry settings = settings := by
  induction table with
  | nil => rfl
  | cons e table ih =>
    obtain ⟨he, htable⟩ := List.forall_mem_cons.1 h
    have hset : setEntry settings e = settings := by
      unfold setEntry
      split
      case h_1 s hs => exact set_eq_self (he s hs)
      case h_2 => rfl
    rw [List.foldl_cons, hset, ih htable]

end Settings

theorem keysOnce_section? {content : List Char} {place : String} {table : Table}
    (h : section? content place = some table) : KeysOnce table := by
  obtain ⟨document, hparse, hplace⟩ := Option.bind_eq_some_iff.1 h
  obtain ⟨v, hv, htable⟩ := Option.bind_eq_some_iff.1 hplace
  obtain rfl := table?_eq_some_iff.1 htable
  exact (Toml.parse?_keysOnce hparse).2 _ (Toml.mem_of_lookup hv)

theorem keysOnce_settingEntries (content : List Char) : KeysOnce (settingEntries content) := by
  unfold settingEntries
  cases h : section? content "settings" with
  | none => exact List.nodup_nil
  | some table => exact keysOnce_section? h

theorem givesSetting_iff (content : List Char) (key : String) (setting : Option String) :
    GivesSetting key content setting ↔
      (((settingEntries content).lookup key).bind Value.string?).map some = some setting := by
  have hsays (s : String) : Says content "settings" key (.string s) ↔
      (settingEntries content).lookup key = some (.string s) := by
    rw [says_iff, settingEntries]
    cases section? content "settings" <;> simp
  simp only [GivesSetting, hsays, Option.map_eq_some_iff, Option.bind_eq_some_iff,
    string?_eq_some_iff]
  constructor
  · rintro ⟨s, rfl, hlookup⟩
    exact ⟨s, ⟨_, hlookup, rfl⟩, rfl⟩
  · rintro ⟨s, ⟨_, hlookup, rfl⟩, rfl⟩
    exact ⟨s, rfl, hlookup⟩

/-- One more content is one more layer. -/
theorem LayeredOn.mergeText {base c : Config} {contents : List (List Char)}
    (h : LayeredOn base contents c) (content : List Char) :
    LayeredOn base (contents ++ [content]) (c.mergeText content).value := by
  rw [mergeText_value]
  refine ⟨h.encoding.concat givesEncoding_iff, h.testDirs.concat givesTestDirs_iff,
    h.functionLimits.concat givesLimits_iff, fun key => ?_⟩
  have hsetting := (h.settings key).concat (givesSetting_iff content key)
  rw [get?_foldl_setEntry (keysOnce_settingEntries content)]
  cases hgiven : ((settingEntries content).lookup key).bind Value.string? with
  | none => simpa [hgiven] using hsetting
  | some s => simpa [hgiven] using hsetting

theorem layeredOn_mergeAll (base : Config) (contents : List (List Char)) :
    LayeredOn base contents (mergeAll base contents).value := by
  rw [mergeAll, Logged.value_foldlM]
  induction contents using List.reverseRecOn with
  | nil => exact ⟨lastGiven_nil, lastGiven_nil, lastGiven_nil, fun _ => lastGiven_nil⟩
  | append_singleton contents content ih =>
    rw [List.foldl_append]
    exact ih.mergeText content

theorem mergeText_twice (c : Config) (content : List Char) :
    ((c.mergeText content).value.mergeText content).value = (c.mergeText content).value := by
  have hkept {α : Type} (given : Option α) (x : α) : given.getD (given.getD x) = given.getD x := by
    cases given <;> rfl
  have hsettings : (settingEntries content).foldl setEntry
      ((settingEntries content).foldl setEntry c.settings) =
        (settingEntries content).foldl setEntry c.settings := by
    refine foldl_setEntry_eq_self fun e he s hs => ?_
    have hkeys := keysOnce_settingEntries content
    rw [get?_foldl_setEntry hkeys, lookup_of_mem hkeys he, Option.bind_some, hs]
    rfl
  -- The second time each field is given what it already holds.
  rw [mergeText_value, mergeText_value]
  simp only [hkept]
  rw [hsettings]

theorem mergeText_of_malformed (c : Config) {content : List Char}
    (h : Toml.parse? content = none) : (c.mergeText content).value = c := by
  rw [mergeText, h]
  rfl

/-- The bounds of a layered configuration are valid if those of the base are. -/
theorem LayeredOn.areLimits {base c : Config} {contents : List (List Char)}
    (h : LayeredOn base contents c) (hbase : AreLimits base.functionLimits) :
    AreLimits c.functionLimits := by
  rcases h.functionLimits with ⟨_, content, _, -, ⟨-, hlimits, -⟩, -⟩ | ⟨heq, -⟩
  · exact hlimits
  · rwa [heq]

/-- The files that can be read are merged in order: that of the user, then that of the project. -/
theorem load_eq_mergeAll (t : FileTree) (home root : Path) :
    (load t home root).value =
      (mergeAll default ([home, root].filterMap fun dir =>
        t.readText? (dir.join (.ofString fileName)))).value := by
  have hfile (c : Config) (file : Path) :
      mergeFile t c file = ((t.readText? file).map c.mergeText).getD (pure c) := by
    unfold mergeFile
    cases t.readText? file <;> rfl
  rw [load, Logged.value_bind, hfile, hfile]
  simp only [List.filterMap_cons, List.filterMap_nil]
  cases t.readText? (home.join (.ofString fileName)) <;>
    cases t.readText? (root.join (.ofString fileName)) <;> rfl

theorem loadFrom_eq_mergeAll (t : FileTree) (file : Path) :
    (loadFrom t file).value = (mergeAll default (t.readText? file).toList).value := by
  unfold loadFrom
  cases t.readText? file <;> rfl

/-- Whatever contents are merged into the default configuration, each field comes from the last of
them that gives a valid value for it, and the bounds are valid. A malformed content changes nothing,
and a content merged twice does no more than once. Every configuration that is loaded is of this
form. -/
theorem mergeAll_default (contents : List (List Char)) :
    LayeredOn default contents (mergeAll default contents).value ∧
      AreLimits (mergeAll default contents).value.functionLimits ∧
      (∀ c content, Toml.parse? content = none → (mergeText c content).value = c) ∧
      (∀ c content, (mergeText (mergeText c content).value content).value =
        (mergeText c content).value) ∧
      (∀ t home root, (load t home root).value =
        (mergeAll default ([home, root].filterMap fun dir =>
          t.readText? (dir.join (.ofString fileName)))).value) ∧
      ∀ t file, (loadFrom t file).value = (mergeAll default (t.readText? file).toList).value := by
  have hlayered := layeredOn_mergeAll default contents
  have hdefault : AreLimits default.functionLimits := ⟨by decide, by decide⟩
  exact ⟨hlayered, hlayered.areLimits hdefault, fun c content => mergeText_of_malformed c,
    mergeText_twice, load_eq_mergeAll, loadFrom_eq_mergeAll⟩

end Config
end SourceGauge
