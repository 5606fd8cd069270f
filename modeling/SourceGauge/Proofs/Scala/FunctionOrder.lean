import Mathlib
import SourceGauge.Proofs.Scala.FunctionStack
import SourceGauge.Scala.Lexer

/-! Functions by the step at which they open. From the items alone it can be said which functions
are open after a step, which of them a decision is charged to, and in which order they end. -/
namespace SourceGauge.Scala.Scan

/-- The scan after the first steps over some items. -/
def afterSteps (items : List Item) (n : Nat) : Scan := after (items.take n)

section History
variable (items : List Item)

/-- A function opens at a step. -/
def OpensAt (n : Nat) : Prop := ∃ item ∈ items[n]?, (afterSteps items n).opens item = true

/-- A step ends functions that opened at a number of open delimiters. -/
def EndsAt (n depth : Nat) : Prop :=
  ∃ item ∈ items[n]?, (afterSteps items n).ends item depth = true

/-- A step takes a decision point. -/
def DecidesAt (n : Nat) : Prop := ∃ item ∈ items[n]?, item.decides = true

/-- The number of open delimiters before a step. -/
def depthAt (n : Nat) : Nat := (afterSteps items n).depth

/-- After `n` steps the function that opened at a step is still open. -/
structure IsOpen (n opened : Nat) : Prop where
  lt : opened < n
  opens : OpensAt items opened
  not_ended : ∀ m, opened < m → m < n → ¬ EndsAt items m (depthAt items opened)

/-- The decision at a step is charged to the function that opened last among the open ones. -/
structure ChargedTo (n opened : Nat) : Prop where
  decides : DecidesAt items n
  isOpen : IsOpen items (n + 1) opened
  newest : ∀ other, IsOpen items (n + 1) other → other ≤ opened

/-- The function `inner` opens while `outer` is open and stays open. -/
structure Nests (outer inner : Nat) : Prop where
  opens : OpensAt items inner
  lt : outer < inner
  isOpen : IsOpen items (inner + 1) outer

open Classical in
/-- How many of the first decisions are charged to a function. -/
noncomputable def charges (n opened : Nat) : Nat :=
  ((Finset.range n).filter (ChargedTo items · opened)).card

open Classical in
/-- How many of the first decisions find no function open. -/
noncomputable def chargesOutside (n : Nat) : Nat :=
  ((Finset.range n).filter fun m =>
    DecidesAt items m ∧ ∀ opened, ¬ IsOpen items (m + 1) opened).card

/-- The functions that are open after `n` steps, the newest first, and those that have ended, the
latest to end first. -/
structure Tracked (n : Nat) (opened ended : List Nat) : Prop where
  newest_first : opened.Pairwise (· > ·)
  mem_opened : ∀ m, m ∈ opened ↔ IsOpen items n m
  openFunctions_eq : (afterSteps items n).openFunctions =
    opened.map fun m => ⟨depthAt items m, charges items n m⟩
  ended_nodup : ended.Nodup
  mem_ended : ∀ m, m ∈ ended ↔ m < n ∧ OpensAt items m ∧ ¬ IsOpen items n m
  ended_eq : (afterSteps items n).ended = ended.map (1 + charges items n ·)
  inner_first : ended.Pairwise fun later earlier => ¬ Nests items earlier later
  outside_eq : (afterSteps items n).outside = chargesOutside items n

end History

section Steps
variable {items : List Item} {n m depth : Nat} {item : Item} {opened ended : List Nat}

theorem afterSteps_succ (h : items[n]? = some item) :
    afterSteps items (n + 1) = (afterSteps items n).step item := by
  rw [afterSteps, afterSteps, after, List.take_add_one, h, Option.toList_some, List.foldl_concat,
    after]

theorem afterSteps_of_length_le (h : items.length ≤ n) : afterSteps items n = after items := by
  rw [afterSteps, List.take_of_length_le h]

theorem opensAt_iff (h : items[n]? = some item) :
    OpensAt items n ↔ (afterSteps items n).opens item = true := by simp [OpensAt, h]

theorem endsAt_iff (h : items[n]? = some item) :
    EndsAt items n depth ↔ (afterSteps items n).ends item depth = true := by simp [EndsAt, h]

theorem decidesAt_iff (h : items[n]? = some item) :
    DecidesAt items n ↔ item.decides = true := by simp [DecidesAt, h]

theorem not_decidesAt_of_opensAt (h : OpensAt items n) : ¬ DecidesAt items n := by
  obtain ⟨item, hitem, hopens⟩ := h
  rw [decidesAt_iff hitem, decides_of_opens _ item hopens]
  exact Bool.false_ne_true

theorem isOpen_succ : IsOpen items (n + 1) m ↔
    (IsOpen items n m ∧ ¬ EndsAt items n (depthAt items m)) ∨ m = n ∧ OpensAt items n := by
  constructor
  · rintro ⟨hlt, hopens, hends⟩
    rcases Nat.lt_succ_iff_lt_or_eq.1 hlt with hlt | rfl
    · exact .inl ⟨⟨hlt, hopens, fun k hm hk => hends k hm (Nat.lt_succ_of_lt hk)⟩,
        hends n hlt (Nat.lt_succ_self n)⟩
    · exact .inr ⟨rfl, hopens⟩
  · rintro (⟨⟨hlt, hopens, hends⟩, hlast⟩ | ⟨rfl, hopens⟩)
    · refine ⟨Nat.lt_succ_of_lt hlt, hopens, fun k hm hk => ?_⟩
      rcases Nat.lt_succ_iff_lt_or_eq.1 hk with hk | rfl
      · exact hends k hm hk
      · exact hlast
    · exact ⟨Nat.lt_succ_self m, hopens, fun k hm hk => absurd hk (by omega)⟩

/-- A function around another one opened at fewer delimiters. -/
theorem Nests.depth_lt {outer inner : Nat} (h : Nests items outer inner) :
    depthAt items outer < depthAt items inner := by
  obtain ⟨item, hitem, hopens⟩ := h.opens
  have hends := h.isOpen.not_ended inner h.lt (Nat.lt_succ_self inner)
  rw [endsAt_iff hitem] at hends
  cases item with
  | code t =>
    rw [Scan.opens, Bool.and_eq_true] at hopens
    simp only [ends, endsFrom, hopens.1, Bool.or_true, if_true, Option.any_some,
      decide_eq_true_eq] at hends
    exact Nat.lt_of_not_le hends
  | _ => cases hopens

theorem not_nests_of_lt {outer inner : Nat} (h : inner < outer) : ¬ Nests items outer inner :=
  fun hnests => Nat.lt_asymm h hnests.lt

/-- While a function is open, no function around it has ended. -/
theorem Nests.isOpen_outer {outer inner : Nat} (h : Nests items outer inner)
    (hinner : IsOpen items n inner) : IsOpen items n outer := by
  refine ⟨h.lt.trans hinner.lt, h.isOpen.opens, fun k hk hkn hends => ?_⟩
  by_cases hle : k ≤ inner
  · exact h.isOpen.not_ended k hk (Nat.lt_succ_of_le hle) hends
  · refine hinner.not_ended k (by omega) hkn ?_
    obtain ⟨item, hitem, hends⟩ := hends
    exact ⟨item, hitem, ends_mono h.depth_lt.le hends⟩

open Classical in
theorem charges_succ (n opened : Nat) : charges items (n + 1) opened =
    charges items n opened + if ChargedTo items n opened then 1 else 0 := by
  rw [charges, charges, Finset.range_add_one, Finset.filter_insert]
  split
  · rw [Finset.card_insert_of_notMem (by simp)]
  · rfl

open Classical in
theorem chargesOutside_succ (n : Nat) : chargesOutside items (n + 1) =
    chargesOutside items n +
      if DecidesAt items n ∧ ∀ opened, ¬ IsOpen items (n + 1) opened then 1 else 0 := by
  rw [chargesOutside, chargesOutside, Finset.range_add_one, Finset.filter_insert]
  split
  · rw [Finset.card_insert_of_notMem (by simp)]
  · rfl

theorem charges_succ_of_not (h : ¬ ChargedTo items n m) :
    charges items (n + 1) m = charges items n m := by
  rw [charges_succ, if_neg h, Nat.add_zero]

open Classical in
/-- Nothing is charged to a function before it opens. -/
theorem charges_succ_self (h : OpensAt items n) : charges items (n + 1) n = 0 := by
  rw [charges, Finset.card_eq_zero, Finset.filter_eq_empty_iff]
  intro k hk hcharged
  have hlt := hcharged.isOpen.lt
  obtain rfl : k = n := by
    have := Finset.mem_range.1 hk
    omega
  exact not_decidesAt_of_opensAt h hcharged.decides

end Steps

namespace Tracked
variable {items : List Item} {n : Nat} {item : Item} {opened ended : List Nat}

theorem start : Tracked items 0 [] [] := by
  refine ⟨.nil, fun m => ⟨nofun, fun h => absurd h.lt (Nat.not_lt_zero m)⟩, rfl, .nil,
    fun m => ⟨nofun, fun h => absurd h.1 (Nat.not_lt_zero m)⟩, rfl, .nil, ?_⟩
  rw [chargesOutside]
  rfl

theorem depths (h : Tracked items n opened ended) :
    (opened.map (depthAt items)).Pairwise (· > ·) := by
  have hdeeper := (stacked_after (items.take n)).deeper
  have hopen := h.openFunctions_eq
  rw [afterSteps] at hopen
  rw [hopen, List.map_map] at hdeeper
  exact hdeeper

/-- The functions that a step ends, and those that outlast it. -/
def closedAt (items : List Item) (n : Nat) (item : Item) (opened : List Nat) : List Nat :=
  opened.takeWhile fun m => (afterSteps items n).ends item (depthAt items m)

def keptAt (items : List Item) (n : Nat) (item : Item) (opened : List Nat) : List Nat :=
  opened.dropWhile fun m => (afterSteps items n).ends item (depthAt items m)

theorem closed_eq (h : Tracked items n opened ended) (item : Item) :
    (afterSteps items n).closed item =
      (closedAt items n item opened).map fun m => ⟨depthAt items m, charges items n m⟩ := by
  rw [closed, h.openFunctions_eq, List.takeWhile_map]
  rfl

theorem kept_eq (h : Tracked items n opened ended) (item : Item) :
    (afterSteps items n).kept item =
      (keptAt items n item opened).map fun m => ⟨depthAt items m, charges items n m⟩ := by
  rw [kept, h.openFunctions_eq, List.dropWhile_map]
  rfl

theorem pairwise_keptAt (h : Tracked items n opened ended) (item : Item) :
    (keptAt items n item opened).Pairwise (· > ·) :=
  h.newest_first.sublist (List.dropWhile_sublist _)

theorem pairwise_closedAt (h : Tracked items n opened ended) (item : Item) :
    (closedAt items n item opened).Pairwise (· > ·) :=
  h.newest_first.sublist (List.takeWhile_sublist _)

section Step
variable (h : Tracked items n opened ended) (hitem : items[n]? = some item)
include h hitem

theorem mem_keptAt (m : Nat) :
    m ∈ keptAt items n item opened ↔ IsOpen items n m ∧ ¬ EndsAt items n (depthAt items m) := by
  rw [keptAt, mem_dropWhile_ends h.depths, h.mem_opened, endsAt_iff hitem, Bool.not_eq_true]

theorem mem_closedAt (m : Nat) :
    m ∈ closedAt items n item opened ↔ IsOpen items n m ∧ EndsAt items n (depthAt items m) := by
  have hsplit : closedAt items n item opened ++ keptAt items n item opened = opened :=
    List.takeWhile_append_dropWhile
  have hmem := h.mem_keptAt hitem m
  constructor
  · intro hm
    have hends := List.mem_takeWhile_imp hm
    refine ⟨(h.mem_opened m).1 ?_, (endsAt_iff hitem).2 hends⟩
    rw [← hsplit]
    exact List.mem_append_left _ hm
  · rintro ⟨hopen, hends⟩
    have hm := (h.mem_opened m).2 hopen
    rw [← hsplit] at hm
    exact (List.mem_append.1 hm).resolve_right fun hkept => (hmem.1 hkept).2 hends

/-- A decision is charged to the first of the functions that outlast its step. -/
theorem chargedTo_iff (hopens : ¬ OpensAt items n) (m : Nat) :
    ChargedTo items n m ↔ DecidesAt items n ∧ (keptAt items n item opened).head? = some m := by
  have hopen (k : Nat) : IsOpen items (n + 1) k ↔ k ∈ keptAt items n item opened := by
    rw [h.mem_keptAt hitem, isOpen_succ, or_iff_left fun hk => hopens hk.2]
  have hsorted := h.pairwise_keptAt item
  constructor
  · rintro ⟨hdecides, hm, hnewest⟩
    refine ⟨hdecides, ?_⟩
    rw [hopen] at hm
    cases hkept : keptAt items n item opened with
    | nil => simp [hkept] at hm
    | cons k rest =>
      rw [hkept] at hm hsorted
      rcases List.mem_cons.1 hm with rfl | hm
      · rfl
      · have hlt := (List.pairwise_cons.1 hsorted).1 m hm
        have hle := hnewest k ((hopen k).2 (by simp [hkept]))
        omega
  · rintro ⟨hdecides, hm⟩
    obtain ⟨rest, hkept⟩ := List.head?_eq_some_iff.1 hm
    rw [hkept] at hsorted
    refine ⟨hdecides, (hopen m).2 (by simp [hkept]), fun k hk => ?_⟩
    rw [hopen, hkept] at hk
    rcases List.mem_cons.1 hk with rfl | hk
    · exact Nat.le_refl _
    · exact ((List.pairwise_cons.1 hsorted).1 k hk).le

theorem openFunctions_succ :
    (afterSteps items (n + 1)).openFunctions =
      (if (afterSteps items n).opens item then n :: keptAt items n item opened
        else keptAt items n item opened).map
          fun m => ⟨depthAt items m, charges items (n + 1) m⟩ := by
  have hsame (hnot : ∀ m, ¬ ChargedTo items n m) :
      (keptAt items n item opened).map
          (fun m => (⟨depthAt items m, charges items (n + 1) m⟩ : OpenFunction)) =
        (keptAt items n item opened).map fun m => ⟨depthAt items m, charges items n m⟩ :=
    List.map_congr_left fun m _ => by rw [charges_succ_of_not (hnot m)]
  rw [afterSteps_succ hitem, openFunctions_step, h.kept_eq item]
  split
  case isTrue hopens =>
    have hopensAt := (opensAt_iff hitem).2 hopens
    rw [List.map_cons, charges_succ_self hopensAt,
      hsame fun m hm => not_decidesAt_of_opensAt hopensAt hm.decides]
    rfl
  case isFalse hopens =>
    have hcharged := h.chargedTo_iff hitem (mt (opensAt_iff hitem).1 hopens)
    split
    case isTrue hdecides =>
      have hdecidesAt := (decidesAt_iff hitem).2 hdecides
      have hsorted := h.pairwise_keptAt item
      cases hkept : keptAt items n item opened with
      | nil => rfl
      | cons k rest =>
        rw [hkept] at hcharged hsorted
        have hk : ChargedTo items n k := (hcharged k).2 ⟨hdecidesAt, rfl⟩
        have hrest (m : Nat) (hm : m ∈ rest) : ¬ ChargedTo items n m := by
          rw [hcharged, List.head?_cons, Option.some.injEq]
          rintro ⟨-, rfl⟩
          exact Nat.lt_irrefl _ ((List.pairwise_cons.1 hsorted).1 k hm)
        have hmap :
            rest.map (fun m => (⟨depthAt items m, charges items (n + 1) m⟩ : OpenFunction)) =
              rest.map fun m => ⟨depthAt items m, charges items n m⟩ :=
          List.map_congr_left fun m hm => by rw [charges_succ_of_not (hrest m hm)]
        rw [List.map_cons, List.map_cons, hmap, charges_succ, if_pos hk]
        rfl
    case isFalse hdecides =>
      exact (hsame fun m hm => hdecides ((decidesAt_iff hitem).1 hm.decides)).symm

/-- What has ended comes before what ends now, and of that the inner functions come first. -/
theorem inner_first_succ :
    ((closedAt items n item opened).reverse ++ ended).Pairwise
      fun later earlier => ¬ Nests items earlier later := by
  refine List.pairwise_append.2 ⟨?_, h.inner_first, fun later hlater earlier hearlier hnests => ?_⟩
  · rw [List.pairwise_reverse]
    exact (h.pairwise_closedAt item).imp not_nests_of_lt
  · have hopen := ((h.mem_closedAt hitem later).1 (List.mem_reverse.1 hlater)).1
    exact ((h.mem_ended earlier).1 hearlier).2.2 (hnests.isOpen_outer hopen)

theorem mem_ended_succ (m : Nat) :
    m ∈ (closedAt items n item opened).reverse ++ ended ↔
      m < n + 1 ∧ OpensAt items m ∧ ¬ IsOpen items (n + 1) m := by
  rw [List.mem_append, List.mem_reverse, h.mem_closedAt hitem, h.mem_ended, isOpen_succ]
  constructor
  · rintro (⟨hopen, hends⟩ | ⟨hlt, hopens, hopen⟩)
    · refine ⟨Nat.lt_succ_of_lt hopen.lt, hopen.opens, ?_⟩
      rintro (⟨-, hnot⟩ | ⟨rfl, -⟩)
      · exact hnot hends
      · exact Nat.lt_irrefl _ hopen.lt
    · refine ⟨Nat.lt_succ_of_lt hlt, hopens, ?_⟩
      rintro (⟨hopen', -⟩ | ⟨rfl, -⟩)
      · exact hopen hopen'
      · exact Nat.lt_irrefl _ hlt
  · rintro ⟨hlt, hopens, hnot⟩
    rw [not_or, not_and, not_not] at hnot
    rcases Nat.lt_succ_iff_lt_or_eq.1 hlt with hlt | rfl
    · by_cases hopen : IsOpen items n m
      · exact .inl ⟨hopen, hnot.1 hopen⟩
      · exact .inr ⟨hlt, hopens, hopen⟩
    · exact absurd ⟨rfl, hopens⟩ hnot.2

open Classical in
theorem outside_succ : (afterSteps items (n + 1)).outside = chargesOutside items (n + 1) := by
  have hnone : (item.decides && ((afterSteps items n).kept item).isEmpty) = true ↔
      DecidesAt items n ∧ ∀ m, ¬ IsOpen items (n + 1) m := by
    rw [Bool.and_eq_true, decidesAt_iff hitem, h.kept_eq item, List.isEmpty_map,
      List.isEmpty_iff, List.eq_nil_iff_forall_not_mem]
    refine and_congr_right fun hdecides => forall_congr' fun m => not_congr ?_
    rw [h.mem_keptAt hitem, isOpen_succ, or_iff_left]
    exact fun hm => not_decidesAt_of_opensAt hm.2 ((decidesAt_iff hitem).2 hdecides)
  rw [afterSteps_succ hitem, outside_step, h.outside_eq, chargesOutside_succ,
    if_congr hnone rfl rfl]

theorem step :
    Tracked items (n + 1)
      (if (afterSteps items n).opens item then n :: keptAt items n item opened
        else keptAt items n item opened)
      ((closedAt items n item opened).reverse ++ ended) := by
  have hkept := h.mem_keptAt hitem
  have hclosed := h.mem_closedAt hitem
  have hsorted := h.pairwise_keptAt item
  have hopened (m : Nat) : m ∈ (if (afterSteps items n).opens item then
      n :: keptAt items n item opened else keptAt items n item opened) ↔
      IsOpen items (n + 1) m := by
    rw [isOpen_succ, opensAt_iff hitem]
    split
    case isTrue hopens => simp [hopens, hkept, or_comm]
    case isFalse hopens => simp [hopens, hkept]
  constructor
  case newest_first =>
    split
    · exact List.pairwise_cons.2 ⟨fun m hm => ((hkept m).1 hm).1.lt, hsorted⟩
    · exact hsorted
  case mem_opened => exact hopened
  case openFunctions_eq => exact h.openFunctions_succ hitem
  case ended_nodup =>
    have hnodup : (closedAt items n item opened).Nodup := (h.pairwise_closedAt item).imp ne_of_gt
    refine List.nodup_append'.2 ⟨List.nodup_reverse.2 hnodup, h.ended_nodup, fun m hm hended => ?_⟩
    exact ((h.mem_ended m).1 hended).2.2 ((hclosed m).1 (List.mem_reverse.1 hm)).1
  case mem_ended => exact h.mem_ended_succ hitem
  case ended_eq =>
    have hsame (m : Nat) (hm : m ∈ (closedAt items n item opened).reverse ++ ended) :
        charges items (n + 1) m = charges items n m :=
      charges_succ_of_not fun hcharged =>
        ((h.mem_ended_succ hitem m).1 hm).2.2 hcharged.isOpen
    rw [List.map_congr_left fun m hm => congrArg (1 + ·) (hsame m hm), afterSteps_succ hitem,
      ended_step, h.closed_eq, h.ended_eq, List.map_append, List.map_reverse, List.map_map]
    rfl
  case inner_first => exact h.inner_first_succ hitem
  case outside_eq => exact h.outside_succ hitem

end Step

/-! The functions in the order in which they end, those at the back that are still open. -/

theorem nodup_order (h : Tracked items n opened ended) : (ended.reverse ++ opened).Nodup := by
  refine List.nodup_append'.2 ⟨List.nodup_reverse.2 h.ended_nodup, h.newest_first.imp ne_of_gt,
    fun m hended hopened => ?_⟩
  exact ((h.mem_ended m).1 (List.mem_reverse.1 hended)).2.2 ((h.mem_opened m).1 hopened)

theorem mem_order (h : Tracked items n opened ended) (m : Nat) :
    m ∈ ended.reverse ++ opened ↔ m < n ∧ OpensAt items m := by
  rw [List.mem_append, List.mem_reverse, h.mem_ended, h.mem_opened]
  constructor
  · rintro (⟨hlt, hopens, -⟩ | hopen)
    · exact ⟨hlt, hopens⟩
    · exact ⟨hopen.lt, hopen.opens⟩
  · rintro ⟨hlt, hopens⟩
    by_cases hopen : IsOpen items n m
    · exact .inr hopen
    · exact .inl ⟨hlt, hopens, hopen⟩

theorem inner_first_order (h : Tracked items n opened ended) :
    (ended.reverse ++ opened).Pairwise fun earlier later => ¬ Nests items earlier later := by
  refine List.pairwise_append.2 ⟨List.pairwise_reverse.2 h.inner_first,
    h.newest_first.imp not_nests_of_lt,
    fun earlier hearlier later hlater hnests => ?_⟩
  have hended := (h.mem_ended earlier).1 (List.mem_reverse.1 hearlier)
  exact hended.2.2 (hnests.isOpen_outer ((h.mem_opened later).1 hlater))

end Tracked

theorem exists_tracked {items : List Item} {n : Nat} (hn : n ≤ items.length) :
    ∃ opened ended, Tracked items n opened ended := by
  induction n with
  | zero => exact ⟨_, _, .start⟩
  | succ n ih =>
    obtain ⟨opened, ended, h⟩ := ih (Nat.le_of_succ_le hn)
    exact ⟨_, _, h.step (List.getElem?_eq_getElem hn)⟩

/-- The complexities that are listed at the end, by the functions that they belong to. -/
theorem Tracked.functionComplexities_eq {items : List Item} {opened ended : List Nat}
    (h : Tracked items items.length opened ended) :
    (after items).metrics.functionComplexities =
      (ended.reverse ++ opened).map (1 + charges items items.length ·) := by
  have hcomplexities : (after items).metrics.functionComplexities =
      (after items).ledger.complexities := rfl
  have hopen := h.openFunctions_eq
  have hended := h.ended_eq
  rw [afterSteps_of_length_le (Nat.le_refl _)] at hopen hended
  rw [hcomplexities, Ledger.complexities_eq, ledger, hopen, hended, List.map_append,
    List.map_reverse, List.map_map]
  rfl

/-- After every step each open function was opened at more delimiters than the one below it, and the
topmost at no more than are open now, so at most one is open at each number of delimiters. A step
ends the topmost functions as far as it reaches. Then a function may open on top, or a decision is
charged to the topmost function: it is the one that opened last among those that have not ended. At
the end nested functions are listed before the functions around them. -/
theorem functions_stacked (tokens : List Token) :
    let items := Item.ofTokens tokens
    (∀ n ≤ items.length, (afterSteps items n).Stacked ∧
      ((afterSteps items n).openFunctions.map OpenFunction.depth).Nodup ∧
      ∃ opened ended, Tracked items n opened ended) ∧
    (∀ n item, items[n]? = some item →
      let s := afterSteps items n
      ∃ closed kept, s.openFunctions = closed ++ kept ∧
        (∀ f ∈ closed, s.ends item f.depth = true) ∧ (∀ f ∈ kept, s.ends item f.depth = false) ∧
        (afterSteps items (n + 1)).ended =
          (closed.map (1 + OpenFunction.decisions ·)).reverse ++ s.ended ∧
        (afterSteps items (n + 1)).openFunctions =
          if s.opens item then ⟨s.depth, 0⟩ :: kept
          else if item.decides then charge kept
          else kept) ∧
    ∃ order : List Nat, order.Nodup ∧ (∀ m, m ∈ order ↔ OpensAt items m) ∧
      (CodeMetrics.ofTokens tokens).functionComplexities =
        order.map (1 + charges items items.length ·) ∧
      order.Pairwise fun earlier later => ¬ Nests items earlier later := by
  intro items
  refine ⟨fun n hn => ?_, fun n item hitem => ?_, ?_⟩
  · have hstacked : (afterSteps items n).Stacked := stacked_after _
    exact ⟨hstacked, hstacked.deeper.imp ne_of_gt, exists_tracked hn⟩
  · have hstacked : (afterSteps items n).Stacked := stacked_after _
    refine ⟨_, _, ((afterSteps items n).closed_append_kept item).symm, fun f hf => ?_,
      fun f hf => ((mem_dropWhile_ends hstacked.deeper).1 hf).2, ?_, ?_⟩
    · exact List.mem_takeWhile_imp
        (p := fun f : OpenFunction => (afterSteps items n).ends item f.depth) hf
    · rw [afterSteps_succ hitem, ended_step]
    · rw [afterSteps_succ hitem, openFunctions_step]
  · obtain ⟨opened, ended, h⟩ := exists_tracked (Nat.le_refl items.length)
    refine ⟨_, h.nodup_order, fun m => ?_, h.functionComplexities_eq, h.inner_first_order⟩
    rw [h.mem_order, and_iff_right_iff_imp]
    rintro ⟨item, hitem, -⟩
    exact (List.getElem?_eq_some_iff.1 hitem).1

example : (CodeMetrics.ofTokens
    (tokenize "def f = \x7b def g = a && b && c; if (d) g \x7d".toList)).functionComplexities =
      [3, 2] := by decide +kernel

end SourceGauge.Scala.Scan
