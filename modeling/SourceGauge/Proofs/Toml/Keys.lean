import Mathlib
import SourceGauge.Toml.Document

/-! Keys of the tables that a document gives. No key stands twice in a table, so what a table holds
under a key does not depend on where in the table one looks. -/
namespace SourceGauge.Toml

/-- No key stands twice. -/
def KeysOnce {α : Type} (entries : List (String × α)) : Prop := (entries.map Prod.fst).Nodup

/-- If the value is a table, no key stands twice in it. -/
def Value.KeysOnce : Value → Prop
  | .table entries => Toml.KeysOnce entries
  | _ => True

/-- If the node becomes a table, no key stands twice in it. A finished value is none. -/
def Node.KeysOnce : Node → Prop
  | .value v => v.table? = none
  | .braced entries => Toml.KeysOnce entries
  | .table _ _ entries => Toml.KeysOnce entries
  | .array _ => True
  | .tables _ => True

theorem keysOnce_of_table? {v : Value} (h : v.table? = none) : v.KeysOnce := by
  cases v with
  | table entries => cases h
  | _ => trivial

theorem mem_of_lookup {α : Type} {entries : List (String × α)} {key : String} {x : α}
    (h : entries.lookup key = some x) : (key, x) ∈ entries := by
  obtain ⟨before, after, rfl, -⟩ := List.lookup_eq_some_iff.1 h
  exact List.mem_append_right _ List.mem_cons_self

namespace Entries

/-- No key stands twice in these entries, nor in a table right under them. -/
structure Tidy (entries : Entries) : Prop where
  keys : KeysOnce entries
  nodes : ∀ e ∈ entries, e.2.KeysOnce

/-- A change that can fail keeps a property of the entries. -/
def Keeps (p : Entries → Prop) (f : Entries → Option Entries) : Prop :=
  ∀ entries changed, f entries = some changed → p entries → p changed

theorem Tidy.nil : Tidy [] := ⟨List.nodup_nil, List.forall_mem_nil _⟩

theorem mem_put {key : String} {node : Node} {entries : Entries} {e : String × Node}
    (h : e ∈ put key node entries) : e = (key, node) ∨ e ∈ entries := by
  induction entries with
  | nil => exact .inl (List.mem_singleton.1 h)
  | cons first entries ih =>
    obtain ⟨k, old⟩ := first
    rw [put] at h
    split at h
    case isTrue hk =>
      rcases List.mem_cons.1 h with rfl | h
      · exact .inl (by rw [hk])
      · exact .inr (List.mem_cons_of_mem _ h)
    case isFalse =>
      rcases List.mem_cons.1 h with rfl | h
      · exact .inr List.mem_cons_self
      · exact (ih h).imp_right (List.mem_cons_of_mem _)

theorem keysOnce_put {entries : Entries} (h : KeysOnce entries) (key : String) (node : Node) :
    KeysOnce (put key node entries) := by
  induction entries with
  | nil => exact List.nodup_singleton key
  | cons first entries ih =>
    obtain ⟨k, old⟩ := first
    obtain ⟨hk, hentries⟩ := List.nodup_cons.1 h
    rw [put]
    split
    case isTrue => exact h
    case isFalse hne =>
      refine List.nodup_cons.2 ⟨fun hmem => ?_, ih hentries⟩
      obtain ⟨e, he, hfst⟩ := List.mem_map.1 hmem
      rcases mem_put he with rfl | he
      · exact hne hfst.symm
      · exact hk (List.mem_map.2 ⟨e, he, hfst⟩)

theorem Tidy.put {entries : Entries} (h : Tidy entries) {node : Node} (hnode : node.KeysOnce)
    (key : String) : Tidy (Entries.put key node entries) where
  keys := keysOnce_put h.keys key node
  nodes e he := by
    rcases mem_put he with rfl | he
    · exact hnode
    · exact h.nodes e he

/-- What a change below a key does to the entries: it puts a table, or an array of tables, with the
changed entries in it. -/
theorem change_cons_cases {f : Bool → Entries → Option Entries} {byKey own : Bool} {key : String}
    {path : List String} {entries changed : Entries}
    (h : change byKey f own (key :: path) entries = some changed) :
    ∃ own' inner inner' node, change byKey f own' path inner = some inner' ∧
      changed = put key node entries ∧
      ((inner = [] ∧ node = .table true byKey inner') ∨
        (∃ items, node = .tables items) ∨
        ∃ implicit dotted, (key, .table implicit dotted inner) ∈ entries ∧
          node = .table implicit dotted inner') := by
  rw [change] at h
  split at h
  case h_1 =>
    obtain ⟨inner', hchange, hput⟩ := Option.bind_eq_some_iff.1 h
    exact ⟨_, _, inner', _, hchange, (Option.some.inj hput).symm, .inl ⟨rfl, rfl⟩⟩
  case h_2 items _ =>
    obtain ⟨inner', hchange, hput⟩ := Option.bind_eq_some_iff.1 h
    exact ⟨_, _, inner', _, hchange, (Option.some.inj hput).symm, .inr (.inl ⟨_, rfl⟩)⟩
  case h_3 implicit dotted inner hlookup =>
    split at h
    · cases h
    · obtain ⟨inner', hchange, hput⟩ := Option.bind_eq_some_iff.1 h
      exact ⟨_, inner, inner', _, hchange, (Option.some.inj hput).symm,
        .inr (.inr ⟨implicit, dotted, mem_of_lookup hlookup, rfl⟩)⟩
  case h_4 => cases h

section Change
variable {f : Bool → Entries → Option Entries}

theorem keysOnce_change (hf : ∀ own, Keeps KeysOnce (f own)) (byKey own : Bool)
    (path : List String) : Keeps KeysOnce (change byKey f own path) := by
  intro entries changed h hentries
  cases path with
  | nil => exact hf own entries changed h hentries
  | cons key path =>
    obtain ⟨_, _, _, node, -, rfl, -⟩ := change_cons_cases h
    exact keysOnce_put hentries key node

theorem tidy_change (hf : ∀ own, Keeps KeysOnce (f own)) (hf' : ∀ own, Keeps Tidy (f own))
    (byKey own : Bool) (path : List String) : Keeps Tidy (change byKey f own path) := by
  intro entries changed h hentries
  cases path with
  | nil => exact hf' own entries changed h hentries
  | cons key path =>
    obtain ⟨own', inner, inner', node, hchange, rfl, hnode⟩ := change_cons_cases h
    refine hentries.put ?_ key
    have hinner : KeysOnce inner → KeysOnce inner' :=
      keysOnce_change hf byKey own' path inner inner' hchange
    rcases hnode with ⟨rfl, rfl⟩ | ⟨items, rfl⟩ | ⟨implicit, dotted, hmem, rfl⟩
    · exact hinner List.nodup_nil
    · exact trivial
    · exact hinner (hentries.nodes _ hmem)

end Change

/-- A node that fits `q` is put into the entries, or a table in them moves to their end. -/
inductive Sets (q : Node → Prop) (entries : Entries) : Entries → Prop
  | put {key : String} {node : Node} (hnode : q node) : Sets q entries (put key node entries)
  | move {key : String} {inner : Entries} (hmem : (key, .table true false inner) ∈ entries) :
      Sets q entries (entries.filter (·.1 ≠ key) ++ [(key, .table false false inner)])

section Sets
variable {q : Node → Prop} {entries changed : Entries}

theorem Sets.keysOnce (h : Sets q entries changed) (hentries : KeysOnce entries) :
    KeysOnce changed := by
  cases h with
  | @put key node => exact keysOnce_put hentries key node
  | @move key inner =>
    have hfront : KeysOnce (entries.filter (·.1 ≠ key)) :=
      hentries.sublist (List.filter_sublist.map Prod.fst)
    rw [KeysOnce, List.map_append, List.nodup_append]
    refine ⟨hfront, List.nodup_singleton key, fun k hk other hother => ?_⟩
    obtain ⟨e, he, rfl⟩ := List.mem_map.1 hk
    rw [List.mem_singleton.1 hother]
    simpa using (List.mem_filter.1 he).2

theorem Sets.tidy (h : Sets q entries changed) (hq : ∀ node, q node → node.KeysOnce)
    (hentries : Tidy entries) : Tidy changed := by
  have hkeys := h.keysOnce hentries.keys
  cases h with
  | @put key node hnode => exact hentries.put (hq node hnode) key
  | move hmem =>
    refine ⟨hkeys, fun e he => ?_⟩
    rcases List.mem_append.1 he with he | he
    · exact hentries.nodes e (List.mem_of_mem_filter he)
    · obtain rfl := List.mem_singleton.1 he
      have hinner : KeysOnce _ := hentries.nodes _ hmem
      exact hinner

end Sets

theorem tidy_change_of_sets {f : Bool → Entries → Option Entries}
    (hf : ∀ own entries changed, f own entries = some changed → Sets Node.KeysOnce entries changed)
    (byKey own : Bool) (path : List String) : Keeps Tidy (change byKey f own path) :=
  tidy_change (fun own entries changed h => (hf own entries changed h).keysOnce)
    (fun own entries changed h => (hf own entries changed h).tidy fun _ => id) byKey own path

theorem define_keeps (path : List String) (v : Node) :
    Keeps KeysOnce (define path v) ∧ (v.KeysOnce → Keeps Tidy (define path v)) := by
  have hsets (own : Bool) (entries changed : Entries)
      (h : (path.getLast?.bind fun key =>
        if own == path.dropLast.isEmpty then none
        else if (entries.lookup key).isSome then none
        else some (put key v entries)) = some changed) : Sets (· = v) entries changed := by
    obtain ⟨key, -, h⟩ := Option.bind_eq_some_iff.1 h
    split at h
    · cases h
    split at h
    · cases h
    · exact Option.some.inj h ▸ .put rfl
  have hkeys (own : Bool) : Keeps KeysOnce _ := fun entries changed h =>
    (hsets own entries changed h).keysOnce
  -- Keys stay apart in the entries themselves even if the new value is an unruly table.
  refine ⟨keysOnce_change hkeys true false path.dropLast, fun hv => ?_⟩
  refine tidy_change hkeys (fun own entries changed h => ?_) true false path.dropLast
  exact (hsets own entries changed h).tidy fun node hnode => hnode ▸ hv

theorem tidy_openTable (path : List String) : Keeps Tidy (openTable path) := by
  refine tidy_change_of_sets (fun own entries changed h => ?_) false false path.dropLast
  obtain ⟨key, -, h⟩ := Option.bind_eq_some_iff.1 h
  split at h
  case h_1 => exact Option.some.inj h ▸ .put List.nodup_nil
  case h_2 inner hlookup => exact Option.some.inj h ▸ .move (mem_of_lookup hlookup)
  case h_3 => cases h

theorem tidy_openArray (path : List String) : Keeps Tidy (openArray path) := by
  refine tidy_change_of_sets (fun own entries changed h => ?_) false false path.dropLast
  obtain ⟨key, -, h⟩ := Option.bind_eq_some_iff.1 h
  split at h
  case h_1 => exact Option.some.inj h ▸ .put trivial
  case h_2 items _ => exact Option.some.inj h ▸ .put trivial
  case h_3 => cases h

theorem tidy_defineIn (header path : List String) {v : Node} (hv : v.KeysOnce) :
    Keeps Tidy (defineIn header path v) :=
  tidy_change (fun _ => (define_keeps path v).1) (fun _ => (define_keeps path v).2 hv) false false
    header

end Entries

section Reading

theorem table?_of_datetime {cs rest : List Char} {v : Value} (h : datetime cs = some (v, rest)) :
    v.table? = none := by
  obtain ⟨_, -, h⟩ := Option.bind_eq_some_iff.1 h
  obtain ⟨rfl, -⟩ := Prod.mk.inj (Option.some.inj h)
  rfl

theorem table?_of_decimal {cs rest : List Char} {v : Value} (h : decimal cs = some (v, rest)) :
    v.table? = none := by
  have hfloat {x : Float} {more : List Char}
      (h : (if x == 1.0 / 0.0 then none else some (Value.float x, more)) = some (v, rest)) :
      v.table? = none := by
    split at h
    · cases h
    · obtain ⟨rfl, -⟩ := Prod.mk.inj (Option.some.inj h)
      rfl
  obtain ⟨⟨whole, more⟩, -, h⟩ := Option.bind_eq_some_iff.1 h
  dsimp only at h
  split at h
  · split at h <;> exact hfloat h
  · obtain ⟨_, -, h⟩ := Option.bind_eq_some_iff.1 h
    exact hfloat h

theorem table?_of_special {cs rest : List Char} {v : Value} (h : special cs = some (v, rest)) :
    v.table? = none := by
  unfold special at h
  obtain ⟨negative, body⟩ := Number.splitSign cs
  dsimp only at h
  split at h
  · obtain ⟨rfl, -⟩ := Prod.mk.inj (Option.some.inj h)
    rfl
  · obtain ⟨rfl, -⟩ := Prod.mk.inj (Option.some.inj h)
    rfl
  · cases h

theorem table?_of_inRange {n : Int} {v : Value} (h : inRange n = some v) : v.table? = none := by
  unfold inRange at h
  split at h
  · obtain rfl := Option.some.inj h
    rfl
  · cases h

theorem table?_of_based {base : Nat} {p : Char → Bool} {cs rest : List Char} {v : Value}
    (h : based base p cs = some (v, rest)) : v.table? = none := by
  obtain ⟨_, -, h⟩ := Option.bind_eq_some_iff.1 h
  obtain ⟨_, hrange, h⟩ := Option.bind_eq_some_iff.1 h
  obtain ⟨rfl, -⟩ := Prod.mk.inj (Option.some.inj h)
  exact table?_of_inRange hrange

theorem table?_of_integer {cs rest : List Char} {v : Value} (h : integer cs = some (v, rest)) :
    v.table? = none := by
  unfold integer at h
  split at h
  · exact table?_of_based h
  · exact table?_of_based h
  · exact table?_of_based h
  · obtain ⟨_, -, h⟩ := Option.bind_eq_some_iff.1 h
    obtain ⟨_, hrange, h⟩ := Option.bind_eq_some_iff.1 h
    obtain ⟨rfl, -⟩ := Prod.mk.inj (Option.some.inj h)
    exact table?_of_inRange hrange

theorem table?_of_number {cs rest : List Char} {v : Value} (h : number cs = some (v, rest)) :
    v.table? = none := by
  rcases Option.or_eq_some_iff.1 h with h | ⟨-, h⟩
  · exact table?_of_decimal h
  rcases Option.or_eq_some_iff.1 h with h | ⟨-, h⟩
  · exact table?_of_special h
  · exact table?_of_integer h

theorem keysOnce_bracedTable {pairs : List (List String × Node)} {node : Node}
    (h : bracedTable pairs = some node) : node.KeysOnce := by
  have hfold (entries changed : Entries) (hentries : KeysOnce entries)
      (hdefine : pairs.foldlM (fun entries (path, v) => Entries.define path v entries) entries =
        some changed) : KeysOnce changed := by
    clear h
    induction pairs generalizing entries with
    | nil => exact Option.some.inj hdefine ▸ hentries
    | cons pair pairs ih =>
      rw [List.foldlM_cons] at hdefine
      obtain ⟨next, hnext, hdefine⟩ := Option.bind_eq_some_iff.1 hdefine
      exact ih next ((Entries.define_keeps pair.1 pair.2).1 entries next hnext hentries) hdefine
  obtain ⟨entries, hdefine, rfl⟩ := Option.map_eq_some_iff.1 h
  exact hfold [] entries List.nodup_nil hdefine

/-- A value that is written after a key. -/
theorem keysOnce_value {fuel depth : Nat} {cs rest : List Char} {node : Node}
    (h : value fuel depth cs = some (node, rest)) : node.KeysOnce := by
  cases fuel with
  | zero => cases h
  | succ fuel =>
    cases cs with
    | nil => cases h
    | cons c cs =>
      rw [value.eq_def] at h
      dsimp only at h
      -- What the first character and the first words announce, in the order of the reader.
      split at h
      case isTrue hstring =>
        obtain ⟨_, -, h⟩ := Option.map_eq_some_iff.1 h
        obtain ⟨rfl, -⟩ := Prod.mk.inj h
        rfl
      split at h
      case isTrue harray =>
        split at h
        · cases h
        split at h
        · obtain ⟨rfl, -⟩ := Prod.mk.inj (Option.some.inj h)
          trivial
        · obtain ⟨_, -, h⟩ := Option.map_eq_some_iff.1 h
          obtain ⟨rfl, -⟩ := Prod.mk.inj h
          trivial
      split at h
      case isTrue hbrace =>
        split at h
        · cases h
        split at h
        · obtain ⟨rfl, -⟩ := Prod.mk.inj (Option.some.inj h)
          exact List.nodup_nil
        · obtain ⟨_, -, h⟩ := Option.bind_eq_some_iff.1 h
          obtain ⟨_, hbraced, h⟩ := Option.bind_eq_some_iff.1 h
          obtain ⟨rfl, -⟩ := Prod.mk.inj (Option.some.inj h)
          exact keysOnce_bracedTable hbraced
      split at h
      case isTrue htrue =>
        obtain ⟨rfl, -⟩ := Prod.mk.inj (Option.some.inj h)
        rfl
      split at h
      case isTrue hfalse =>
        obtain ⟨rfl, -⟩ := Prod.mk.inj (Option.some.inj h)
        rfl
      case isFalse =>
        obtain ⟨⟨v, rest⟩, hread, h⟩ := Option.map_eq_some_iff.1 h
        obtain ⟨rfl, -⟩ := Prod.mk.inj h
        rcases Option.or_eq_some_iff.1 hread with hread | ⟨-, hread⟩
        · exact table?_of_datetime hread
        · exact table?_of_number hread

theorem keysOnce_pairLine {cs rest : List Char} {path : List String} {node : Node}
    (h : pairLine cs = some (.pair path node, rest)) : node.KeysOnce := by
  obtain ⟨_, -, h⟩ := Option.bind_eq_some_iff.1 h
  obtain ⟨_, -, h⟩ := Option.bind_eq_some_iff.1 h
  obtain ⟨_, hvalue, h⟩ := Option.bind_eq_some_iff.1 h
  obtain ⟨_, -, h⟩ := Option.bind_eq_some_iff.1 h
  cases h
  exact keysOnce_value hvalue

theorem keysOnce_line {cs rest : List Char} {path : List String} {node : Node}
    (h : line cs = some (.pair path node, rest)) : node.KeysOnce := by
  unfold line at h
  dsimp only at h
  split at h
  case h_1 => cases h
  case h_2 =>
    obtain ⟨_, -, h⟩ := Option.bind_eq_some_iff.1 h
    obtain ⟨_, -, h⟩ := Option.bind_eq_some_iff.1 h
    obtain ⟨_, -, h⟩ := Option.bind_eq_some_iff.1 h
    obtain ⟨_, -, h⟩ := Option.bind_eq_some_iff.1 h
    cases h
  case h_3 =>
    obtain ⟨_, -, h⟩ := Option.bind_eq_some_iff.1 h
    obtain ⟨_, -, h⟩ := Option.bind_eq_some_iff.1 h
    obtain ⟨_, -, h⟩ := Option.bind_eq_some_iff.1 h
    cases h
  case h_4 =>
    split at h
    · obtain ⟨_, -, h⟩ := Option.map_eq_some_iff.1 h
      cases h
    · exact keysOnce_pairLine h

/-- Every line keeps the entries tidy. -/
theorem tidy_lines {fuel : Nat} {header : List String} {entries changed : Entries}
    {cs : List Char} (h : lines fuel header entries cs = some changed) (hentries : entries.Tidy) :
    changed.Tidy := by
  induction fuel generalizing header entries cs with
  | zero =>
    cases cs with
    | nil => exact Option.some.inj h ▸ hentries
    | cons c cs => cases h
  | succ fuel ih =>
    cases cs with
    | nil => exact Option.some.inj h ▸ hentries
    | cons c cs =>
      obtain ⟨⟨read, rest⟩, hline, h⟩ := Option.bind_eq_some_iff.1 h
      cases read with
      | blank => exact ih h hentries
      | pair path v =>
        obtain ⟨next, hnext, h⟩ := Option.bind_eq_some_iff.1 h
        exact ih h (Entries.tidy_defineIn header path (keysOnce_line hline) _ _ hnext hentries)
      | table path =>
        obtain ⟨next, hnext, h⟩ := Option.bind_eq_some_iff.1 h
        exact ih h (Entries.tidy_openTable path _ _ hnext hentries)
      | array path =>
        obtain ⟨next, hnext, h⟩ := Option.bind_eq_some_iff.1 h
        exact ih h (Entries.tidy_openArray path _ _ hnext hentries)

end Reading

section Finish

theorem mem_tableOf? {entries : Entries} {table : Table} (h : tableOf? entries = some table) :
    table.map Prod.fst = entries.map Prod.fst ∧
      ∀ e ∈ table, ∃ node, (e.1, node) ∈ entries ∧ node.toValue? = some e.2 := by
  induction entries generalizing table with
  | nil =>
    rw [tableOf?, Option.some.injEq] at h
    subst h
    exact ⟨rfl, List.forall_mem_nil _⟩
  | cons first entries ih =>
    obtain ⟨key, node⟩ := first
    rw [tableOf?] at h
    obtain ⟨v, hv, h⟩ := Option.bind_eq_some_iff.1 h
    obtain ⟨rest, hrest, h⟩ := Option.bind_eq_some_iff.1 h
    obtain rfl := Option.some.inj h
    obtain ⟨hkeys, hnodes⟩ := ih hrest
    refine ⟨by rw [List.map_cons, List.map_cons, hkeys], List.forall_mem_cons.2 ⟨?_, ?_⟩⟩
    · exact ⟨node, List.mem_cons_self, hv⟩
    · intro e he
      obtain ⟨node, hnode, hv⟩ := hnodes e he
      exact ⟨node, List.mem_cons_of_mem _ hnode, hv⟩

theorem keysOnce_sortEntries {table : Table} (h : KeysOnce table) :
    KeysOnce (sortEntries table) :=
  (((List.mergeSort_perm table _).map Prod.fst).nodup_iff).2 h

theorem keysOnce_datetimeOf? {s : String} {v : Value} (h : datetimeOf? s = some v) :
    v.KeysOnce := by
  unfold datetimeOf? at h
  split at h
  case h_1 hread =>
    obtain rfl := Option.some.inj h
    exact keysOnce_of_table? (table?_of_datetime hread)
  case h_2 => cases h

theorem keysOnce_tableValue? {entries : Entries} {v : Value} (hentries : KeysOnce entries)
    (h : tableValue? entries = some v) : v.KeysOnce := by
  cases entries with
  | nil =>
    rw [tableValue?, Option.some.injEq] at h
    subst h
    exact List.nodup_nil
  | cons first entries =>
    obtain ⟨key, node⟩ := first
    rw [tableValue?.eq_def] at h
    dsimp only at h
    split at h
    · split at h
      case h_1 s => exact keysOnce_datetimeOf? h
      case h_2 => cases h
    · obtain ⟨first, -, h⟩ := Option.bind_eq_some_iff.1 h
      obtain ⟨rest, hrest, h⟩ := Option.bind_eq_some_iff.1 h
      obtain rfl := Option.some.inj h
      refine keysOnce_sortEntries ?_
      rw [KeysOnce, List.map_cons, (mem_tableOf? hrest).1]
      exact hentries

theorem keysOnce_toValue? {node : Node} {v : Value} (hnode : node.KeysOnce)
    (h : node.toValue? = some v) : v.KeysOnce := by
  cases node with
  | value w =>
    rw [Node.toValue?, Option.some.injEq] at h
    exact h ▸ keysOnce_of_table? hnode
  | array items =>
    rw [Node.toValue?] at h
    obtain ⟨_, -, rfl⟩ := Option.map_eq_some_iff.1 h
    trivial
  | braced entries =>
    rw [Node.toValue?] at h
    exact keysOnce_tableValue? hnode h
  | table implicit dotted entries =>
    rw [Node.toValue?] at h
    exact keysOnce_tableValue? hnode h
  | tables items =>
    rw [Node.toValue?] at h
    obtain ⟨_, -, rfl⟩ := Option.map_eq_some_iff.1 h
    trivial

end Finish

/-- In the table of a document, and in each table right under it, every key stands once. -/
theorem parse?_keysOnce {cs : List Char} {document : Table} (h : parse? cs = some document) :
    KeysOnce document ∧ ∀ e ∈ document, e.2.KeysOnce := by
  obtain ⟨entries, hlines, hfinish⟩ := Option.bind_eq_some_iff.1 h
  obtain ⟨table, htable, rfl⟩ := Option.map_eq_some_iff.1 hfinish
  have hentries := tidy_lines hlines .nil
  obtain ⟨hkeys, hnodes⟩ := mem_tableOf? htable
  constructor
  · refine keysOnce_sortEntries ?_
    rw [KeysOnce, hkeys]
    exact hentries.keys
  · intro e he
    obtain ⟨node, hnode, hv⟩ := hnodes e ((List.mergeSort_perm table _).mem_iff.1 he)
    exact keysOnce_toValue? (hentries.nodes _ hnode) hv

end SourceGauge.Toml
