import Mathlib
import SourceGauge.Proofs.Config.Layer

/-! Warnings about a configuration. A value of a document that fits its place is in the merged
configuration, and one that does not is named in a warning. Only what stands under the name of a
section without being a table leaves no trace. -/
namespace SourceGauge
open Toml (Table Value KeysOnce)

namespace Logged

theorem mem_log_bind {α β : Type} {x : Logged α} {f : α → Logged β} {event : Event} :
    event ∈ (x >>= f).log ↔ event ∈ x.log ∨ event ∈ (f x.value).log := by
  rw [log_bind, List.mem_append]

/-- What a loop logs for one of its elements, whenever it comes to it. -/
theorem mem_log_foldlM {α β : Type} {f : β → α → Logged β} {xs : List α} {x : α} (hx : x ∈ xs)
    {event : Event} (h : ∀ b, event ∈ (f b x).log) (b : β) : event ∈ (xs.foldlM f b).log := by
  induction xs generalizing b with
  | nil => cases hx
  | cons y xs ih =>
    rw [List.foldlM_cons, mem_log_bind]
    rcases List.mem_cons.1 hx with rfl | hx
    · exact .inl (h b)
    · exact .inr (ih hx _)

/-- The log has a warning that puts the word in quotes. -/
def WarnsOf {α : Type} (x : Logged α) (word : String) : Prop :=
  ∃ before after : String, ⟨.warn, before ++ "'" ++ word ++ "'" ++ after⟩ ∈ x.log

theorem WarnsOf.mono {α β : Type} {x : Logged α} {y : Logged β} {word : String}
    (h : x.WarnsOf word) (hlog : x.log ⊆ y.log) : y.WarnsOf word := by
  obtain ⟨before, after, hmem⟩ := h
  exact ⟨before, after, hlog hmem⟩

end Logged

namespace Config

/-- The names that a document can give to sections. -/
def sections : List String := ["sources", "complexity", "settings"]

/-- A value that a section takes under a key. -/
inductive Fits : String → String → Value → Prop
  | encoding {name : String} {e : Text.Encoding} (h : Text.Encoding.ofName? name = some e) :
      Fits "sources" "encoding" (.string name)
  | testDirs (dirs : List String) : Fits "sources" "test_dirs" (.array (dirs.map .string))
  | functionLimits {limits : List Nat} (h : AreLimits limits) (hbound : ∀ n ∈ limits, n < 2 ^ 32) :
      Fits "complexity" "function_limits" (.array (limits.map fun n : Nat => .integer n))
  | setting (key s : String) : Fits "settings" key (.string s)

/-- The configuration holds what the value under a key of a section says. -/
inductive Holds (c : Config) : String → String → Value → Prop
  | encoding {name : String} (h : Text.Encoding.ofName? name = some c.encoding) :
      Holds c "sources" "encoding" (.string name)
  | testDirs : Holds c "sources" "test_dirs" (.array (c.testDirs.map .string))
  | functionLimits :
      Holds c "complexity" "function_limits"
        (.array (c.functionLimits.map fun n : Nat => .integer n))
  | setting {key s : String} (h : c.settings.get? key = some s) :
      Holds c "settings" key (.string s)

/-- What a warning about a value names: its key, or the encoding that it asks for. -/
def subject (place key : String) : Value → String
  | .string name => if place = "sources" ∧ key = "encoding" then name else key
  | _ => key

theorem subject_eq_key {place key : String} {v : Value}
    (h : v.string? = none ∨ place ≠ "sources" ∨ key ≠ "encoding") : subject place key v = key := by
  cases v with
  | string s =>
    refine if_neg fun hboth => ?_
    rcases h with h | h | h
    · cases h
    · exact h hboth.1
    · exact h hboth.2
  | _ => rfl

section Getters
variable {table : Table} {known : List String} {key place : String} {v : Value}

theorem checkKeys_eq (table : Table) (known : List String) (place : String) :
    checkKeys table known place =
      ⟨(), (table.filter fun e => !known.contains e.1).map fun e =>
        ⟨.warn, s!"Unknown config key '{e.1}' in {place}"⟩⟩ := by
  induction table with
  | nil => rfl
  | cons e table ih =>
    have hcons : checkKeys (e :: table) known place =
        ⟨(), (if known.contains e.1 then pure ()
          else Logged.warn s!"Unknown config key '{e.1}' in {place}" : Logged Unit).log ++
          (checkKeys table known place).log⟩ := rfl
    rw [hcons, ih, List.filter_cons]
    cases known.contains e.1 <;> rfl

theorem checkKeys_warnsOf {e : String × Value} (he : e ∈ table) (known : List String)
    (hkey : e.1 ∉ known) (place : String) : (checkKeys table known place).WarnsOf e.1 := by
  refine ⟨"Unknown config key ", s!" in {place}", ?_⟩
  rw [checkKeys_eq]
  refine List.mem_map.2 ⟨e, List.mem_filter.2 ⟨he, by simpa using hkey⟩, ?_⟩
  simp [← String.toList_inj, toString]

/-- Entries under a known key do not matter to the check. -/
theorem checkKeys_filter (hkey : key ∈ known) (table : Table) (place : String) :
    checkKeys (table.filter (·.1 ≠ key)) known place = checkKeys table known place := by
  rw [checkKeys_eq, checkKeys_eq, List.filter_filter]
  have hsame : (fun e : String × Value => !known.contains e.1 && decide (e.1 ≠ key)) =
      fun e => !known.contains e.1 := by
    funext e
    by_cases he : e.1 = key
    · simp [he, hkey]
    · simp [he]
  rw [hsame]

theorem getString_warnsOf (h : table.lookup key = some v) (hv : v.string? = none) :
    (getString table key).WarnsOf key := by
  refine ⟨"Config key ", s!" expected string, got {v.typeName}", ?_⟩
  unfold getString
  rw [h]
  cases v with
  | string s => cases hv
  | _ => simp [← String.toList_inj, toString, Logged.warn, Logged.event]

theorem getList_warnsOf {α : Type} {item : Value → Option α} (h : table.lookup key = some v)
    (hv : v.array?.bind (·.mapM item) = none) (kind : String) :
    (getList item kind table key).WarnsOf key := by
  refine ⟨"Config key ", s!" expected array of {kind}", ?_⟩
  unfold getList
  rw [h]
  dsimp only
  rw [hv]
  simp [← String.toList_inj, toString, Logged.warn, Logged.event]

/-- What an array is read as, when each of its items is written in the right form. -/
theorem list_eq_some_iff {α : Type} {item : Value → Option α} {make : α → Value} {q : α → Prop}
    (hitem : ∀ v x, item v = some x ↔ v = make x ∧ q x) {xs : List α} :
    v.array?.bind (·.mapM item) = some xs ↔ v = .array (xs.map make) ∧ ∀ x ∈ xs, q x := by
  simp only [Option.bind_eq_some_iff, array?_eq_some_iff, mapM_eq_some_iff hitem]
  constructor
  · rintro ⟨_, rfl, rfl, hxs⟩
    exact ⟨rfl, hxs⟩
  · rintro ⟨rfl, hxs⟩
    exact ⟨_, rfl, rfl, hxs⟩

end Getters

section Sections
variable {table : Table} {e : String × Value}

/-- The sources section itself warns of a name that is no encoding. -/
theorem applySources_log (c : Config) (table : Table) :
    (applySources c table).log =
      (checkKeys table ["encoding", "test_dirs"] "sources").log ++
        ((getString table "encoding").log ++
          ((match (getString table "encoding").value with
            | none => []
            | some name =>
              match Text.Encoding.ofName? name with
              | some _ => []
              | none => [⟨.warn,
                s!"{Text.Encoding.unsupportedMessage name}; keeping {c.encoding.name}"⟩]) ++
            (getList Value.string? "strings" table "test_dirs").log)) := by
  simp only [applySources, Logged.log_bind]
  congr 2
  generalize getList Value.string? "strings" table "test_dirs" = dirs
  cases (getString table "encoding").value with
  | none => cases hdirs : dirs.value <;> simp [Logged.log_bind, hdirs]
  | some name =>
    dsimp only
    cases Text.Encoding.ofName? name <;> cases hdirs : dirs.value <;>
      simp [Logged.log_bind, Logged.warn, Logged.event, hdirs]

/-- The complexity section itself warns of bounds that do not increase. -/
theorem applyComplexity_log (c : Config) (table : Table) :
    (applyComplexity c table).log =
      (checkKeys table ["function_limits"] "complexity").log ++
        ((getList bound? "non-negative integers" table "function_limits").log ++
          (match (getList bound? "non-negative integers" table "function_limits").value with
          | none => []
          | some limits =>
            if limits.isEmpty || !strictlyIncreasing limits then
              [⟨.warn, "Config key 'function_limits' must be non-empty and strictly increasing"⟩]
            else [])) := by
  simp only [applyComplexity, Logged.log_bind]
  congr 2
  cases (getList bound? "non-negative integers" table "function_limits").value with
  | none => rfl
  | some limits =>
    dsimp only
    split <;> rfl

theorem applySources_warnsOf (c : Config) (hkeys : KeysOnce table) (he : e ∈ table)
    (h : ¬ Fits "sources" e.1 e.2) :
    (applySources c table).WarnsOf (subject "sources" e.1 e.2) := by
  have hlog := applySources_log c table
  have hlookup := lookup_of_mem hkeys he
  obtain ⟨key, v⟩ := e
  by_cases hencoding : key = "encoding"
  · subst hencoding
    by_cases hv : v.string? = none
    case pos =>
      rw [subject_eq_key (.inl hv)]
      refine (getString_warnsOf hlookup hv).mono fun event hevent => ?_
      simp [hlog, hevent]
    case neg =>
      obtain ⟨name, hname⟩ := Option.ne_none_iff_exists'.1 hv
      have hvalue : (getString table "encoding").value = some name := by
        rw [getString_value, hlookup, Option.bind_some, hname]
      obtain rfl := string?_eq_some_iff.1 hname
      have hnone : Text.Encoding.ofName? name = none :=
        Option.eq_none_iff_forall_ne_some.2 fun found hfound => h (.encoding hfound)
      have hmessage : s!"{Text.Encoding.unsupportedMessage name}; keeping {c.encoding.name}" =
          "unsupported encoding " ++ "'" ++ name ++ "'" ++ s!"; keeping {c.encoding.name}" := by
        unfold Text.Encoding.unsupportedMessage
        simp [← String.toList_inj, toString]
      rw [hvalue] at hlog
      dsimp only at hlog
      rw [hnone, hmessage] at hlog
      have hsubject : subject "sources" "encoding" (.string name) = name := by
        rw [subject]
        exact if_pos ⟨rfl, rfl⟩
      refine ⟨"unsupported encoding ", s!"; keeping {c.encoding.name}", ?_⟩
      rw [hlog, hsubject]
      simp
  rw [subject_eq_key (.inr (.inr hencoding))]
  by_cases hdirs : key = "test_dirs"
  · subst hdirs
    have hv : v.array?.bind (·.mapM Value.string?) = none := by
      refine Option.eq_none_iff_forall_ne_some.2 fun dirs hread => h ?_
      have hitem (v : Value) (s : String) : v.string? = some s ↔ v = .string s ∧ True := by
        rw [string?_eq_some_iff, and_true]
      obtain ⟨rfl, -⟩ := (list_eq_some_iff hitem).1 hread
      exact .testDirs dirs
    refine (getList_warnsOf hlookup hv "strings").mono fun event hevent => ?_
    simp [hlog, hevent]
  · refine (checkKeys_warnsOf he ["encoding", "test_dirs"] (by simp [hencoding, hdirs])
      "sources").mono ?_
    rw [hlog]
    exact List.subset_append_left ..

theorem applyComplexity_warnsOf (c : Config) (hkeys : KeysOnce table) (he : e ∈ table)
    (h : ¬ Fits "complexity" e.1 e.2) :
    (applyComplexity c table).WarnsOf (subject "complexity" e.1 e.2) := by
  have hlog := applyComplexity_log c table
  have hlookup := lookup_of_mem hkeys he
  obtain ⟨key, v⟩ := e
  rw [subject_eq_key (.inr (.inl (by decide)))]
  by_cases hlimits : key = "function_limits"
  · subst hlimits
    cases hv : v.array?.bind (·.mapM bound?) with
    | none =>
      refine (getList_warnsOf hlookup hv "non-negative integers").mono fun event hevent => ?_
      simp [hlog, hevent]
    | some limits =>
      obtain ⟨rfl, hbound⟩ := (list_eq_some_iff fun v n => bound?_eq_some_iff).1 hv
      have hvalue : (getList bound? "non-negative integers" table "function_limits").value =
          some limits := by rw [getList_value, hlookup, Option.bind_some, hv]
      have hinvalid : (limits.isEmpty || !strictlyIncreasing limits) = true := by
        by_contra hvalid
        simp only [Bool.or_eq_true, List.isEmpty_iff, Bool.not_eq_true', not_or,
          Bool.not_eq_false, strictlyIncreasing_iff] at hvalid
        exact h (.functionLimits ⟨hvalid.1, hvalid.2⟩ hbound)
      refine ⟨"Config key ", " must be non-empty and strictly increasing", ?_⟩
      rw [hlog, hvalue]
      dsimp only
      rw [if_pos hinvalid]
      simp
  · refine (checkKeys_warnsOf he ["function_limits"] (by simpa using hlimits) "complexity").mono ?_
    rw [hlog]
    exact List.subset_append_left ..

theorem applySettings_warnsOf (c : Config) (he : e ∈ table) (h : ¬ Fits "settings" e.1 e.2) :
    (applySettings c table).WarnsOf (subject "settings" e.1 e.2) := by
  obtain ⟨key, v⟩ := e
  rw [subject_eq_key (.inr (.inl (by decide)))]
  refine ⟨"Setting ", s!" expected string, got {v.typeName}",
    Logged.mem_log_foldlM he (fun c => ?_) c⟩
  cases v with
  | string s => exact absurd (.setting key s) h
  | _ => simp [applySetting, ← String.toList_inj, toString, Logged.warn, Logged.event]

end Sections

section Document
variable {document table : Table} {content : List Char} {place key : String} {v : Value}

/-- What each section logs, for some configuration that it comes to. -/
theorem mergeTable_log (c : Config) (document : Table) : ∃ c₁ c₂,
    (c.mergeTable document).log =
      (checkKeys document sections "top level").log ++
        ((applySection document "sources" applySources c).log ++
          ((applySection document "complexity" applyComplexity c₁).log ++
            (applySection document "settings" applySettings c₂).log)) :=
  ⟨_, _, rfl⟩

theorem applySection_of_lookup (h : document.lookup place = some (.table table))
    (apply : Config → Table → Logged Config) (c : Config) :
    applySection document place apply c = apply c table := by
  rw [applySection, h]
  rfl

theorem mergeTable_warnsOf (c : Config) (hplace : place ∈ sections)
    (hlookup : document.lookup place = some (.table table)) (hkeys : KeysOnce table)
    {e : String × Value} (he : e ∈ table) (h : ¬ Fits place e.1 e.2) :
    (c.mergeTable document).WarnsOf (subject place e.1 e.2) := by
  obtain ⟨c₁, c₂, hlog⟩ := mergeTable_log c document
  simp only [sections, List.mem_cons, List.not_mem_nil, or_false] at hplace
  rcases hplace with rfl | rfl | rfl
  · refine (applySources_warnsOf c hkeys he h).mono fun event hevent => ?_
    rw [applySection_of_lookup hlookup] at hlog
    simp [hlog, hevent]
  · refine (applyComplexity_warnsOf c₁ hkeys he h).mono fun event hevent => ?_
    rw [applySection_of_lookup hlookup applyComplexity] at hlog
    simp [hlog, hevent]
  · refine (applySettings_warnsOf c₂ he h).mono fun event hevent => ?_
    rw [applySection_of_lookup hlookup applySettings] at hlog
    simp [hlog, hevent]

theorem lookup_filter_ne {place other : String} (h : other ≠ place) (document : Table) :
    (document.filter (·.1 ≠ place)).lookup other = document.lookup other := by
  induction document with
  | nil => rfl
  | cons e document ih =>
    rw [List.filter_cons]
    split
    case isTrue => rw [List.lookup_cons, List.lookup_cons, ih]
    case isFalse he =>
      have hplace : e.1 = place := by simpa using he
      rw [ih, List.lookup_cons, beq_eq_false_iff_ne.2 (hplace ▸ h)]

/-- What stands under the name of a section without being a table might as well be left out. -/
theorem mergeTable_filter (c : Config) (hplace : place ∈ sections)
    (h : (document.lookup place).bind Value.table? = none) :
    c.mergeTable (document.filter (·.1 ≠ place)) = c.mergeTable document := by
  have hsame (other : String) (apply : Config → Table → Logged Config) (c : Config) :
      applySection (document.filter (·.1 ≠ place)) other apply c =
        applySection document other apply c := by
    by_cases hother : other = place
    · have hnone : (document.filter (·.1 ≠ place)).lookup place = none := by
        refine List.lookup_eq_none_iff.2 fun e he => ?_
        have hne : e.1 ≠ place := by simpa using (List.mem_filter.1 he).2
        simpa using hne.symm
      rw [applySection, applySection, hother, hnone, h]
      rfl
    · rw [applySection, applySection, lookup_filter_ne hother]
  have hcheck : checkKeys (document.filter (·.1 ≠ place)) ["sources", "complexity", "settings"]
      "top level" = checkKeys document ["sources", "complexity", "settings"] "top level" :=
    checkKeys_filter hplace document "top level"
  rw [mergeTable, hcheck]
  simp only [hsame]
  rfl

/-- A value that fits is in the merged configuration. -/
theorem Fits.holds (h : Fits place key v) (c : Config) (hgives : Says content place key v) :
    Holds (c.mergeText content).value place key v := by
  rw [mergeText_value]
  cases h with
  | @encoding name e hname =>
    have hgiven := (givesEncoding_iff e).1 ⟨name, hgives, hname⟩
    refine .encoding ?_
    rw [hgiven, hname]
    rfl
  | testDirs dirs =>
    have hgiven := (givesTestDirs_iff dirs).1 hgives
    rw [hgiven]
    exact .testDirs
  | @functionLimits limits hlimits hbound =>
    have hgiven := (givesLimits_iff limits).1 ⟨hgives, hlimits, hbound⟩
    rw [hgiven]
    exact .functionLimits
  | setting key s =>
    have hgiven := (givesSetting_iff content key (some s)).1 ⟨s, rfl, hgives⟩
    refine .setting ?_
    rw [get?_foldl_setEntry (keysOnce_settingEntries content)]
    cases hentry : ((settingEntries content).lookup key).bind Value.string? with
    | none => simp [hentry] at hgiven
    | some found => simpa [hentry] using hgiven

end Document

/-- Merging a document warns of every entry that is no section. In a section it takes each value
that fits and warns of each other one. An entry that has the name of a section and is no table is
passed over without a word: all is as it were without the entry. -/
theorem mergeText_accounts {content : List Char} {document : Table}
    (h : Toml.parse? content = some document) (c : Config) :
    (∀ e ∈ document, e.1 ∉ sections → (c.mergeText content).WarnsOf e.1) ∧
      (∀ place ∈ sections, ∀ table, (place, Value.table table) ∈ document → ∀ e ∈ table,
        (Fits place e.1 e.2 → Holds (c.mergeText content).value place e.1 e.2) ∧
          (¬ Fits place e.1 e.2 → (c.mergeText content).WarnsOf (subject place e.1 e.2))) ∧
      ∀ e ∈ document, e.1 ∈ sections → e.2.table? = none →
        c.mergeText content = c.mergeTable (document.filter (·.1 ≠ e.1)) := by
  obtain ⟨hkeys, htables⟩ := Toml.parse?_keysOnce h
  have hmerge : c.mergeText content = c.mergeTable document := by rw [mergeText, h]
  rw [hmerge]
  refine ⟨fun e he hkey => ?_, fun place hplace table htable e he => ⟨fun hfits => ?_, ?_⟩,
    fun e he hkey hnone => ?_⟩
  · obtain ⟨c₁, c₂, hlog⟩ := mergeTable_log c document
    refine (checkKeys_warnsOf he sections hkey "top level").mono ?_
    rw [hlog]
    exact List.subset_append_left ..
  · have hgives : Says content place e.1 e.2 :=
      ⟨document, table, h, lookup_of_mem hkeys htable, lookup_of_mem (htables _ htable) he⟩
    rw [← hmerge]
    exact hfits.holds c hgives
  · exact mergeTable_warnsOf c hplace (lookup_of_mem hkeys htable) (htables _ htable) he
  · refine (mergeTable_filter c hkey ?_).symm
    rw [lookup_of_mem hkeys he]
    exact hnone

/-- The document has an unknown entry, an encoding that is none and a section that is no table. -/
theorem mergeText_accounts_three_entries :
    let content := "colour = true\nsettings = 1\n[sources]\nencoding = \"KOI8-R\"".toList
    let sources : Table := [("encoding", .string "KOI8-R")]
    Toml.parse? content =
        some [("colour", .boolean true), ("settings", .integer 1), ("sources", .table sources)] ∧
      (default.mergeText content).WarnsOf "colour" ∧
      (default.mergeText content).WarnsOf "KOI8-R" ∧
      default.mergeText content =
        default.mergeTable [("colour", .boolean true), ("sources", .table sources)] := by
  have hparse : Toml.parse?
      "colour = true\nsettings = 1\n[sources]\nencoding = \"KOI8-R\"".toList =
        some [("colour", .boolean true), ("settings", .integer 1),
          ("sources", .table [("encoding", .string "KOI8-R")])] := by cbv
  have hunfit : ¬ Fits "sources" "encoding" (.string "KOI8-R") := by
    have hnone : Text.Encoding.ofName? "KOI8-R" = none := by cbv
    generalize hplace : "sources" = place, "encoding" = key, hv : Value.string "KOI8-R" = v
    intro hfits
    cases hfits with
    | encoding hname =>
      rw [← Value.string.inj hv, hnone] at hname
      cases hname
    | testDirs => cases hv
    | functionLimits => cases hv
    | setting => exact absurd hplace (by decide)
  obtain ⟨hunknown, hvalues, hsilent⟩ := mergeText_accounts hparse default
  refine ⟨hparse, hunknown ("colour", .boolean true) (by simp) (by decide), ?_, ?_⟩
  · exact (hvalues "sources" (by decide) [("encoding", .string "KOI8-R")] (by simp)
      ("encoding", .string "KOI8-R") List.mem_cons_self).2 hunfit
  · exact hsilent ("settings", .integer 1) (by simp) (by decide) rfl

/-- An encoding is given in place of the section, and no word is said of it. -/
theorem mergeText_silent_section :
    Toml.parse? "sources = \"latin1\"".toList = some [("sources", .string "latin1")] ∧
      default.mergeText "sources = \"latin1\"".toList = ⟨default, []⟩ ∧
      ¬ (default.mergeText "sources = \"latin1\"".toList).WarnsOf "sources" := by
  have hparse : Toml.parse? "sources = \"latin1\"".toList =
      some [("sources", .string "latin1")] := by cbv
  have hmerge : default.mergeText "sources = \"latin1\"".toList = ⟨default, []⟩ := by
    rw [mergeText, hparse]
    rfl
  refine ⟨hparse, hmerge, ?_⟩
  rw [hmerge]
  rintro ⟨before, after, hmem⟩
  cases hmem

end Config
end SourceGauge
