import SourceGauge.Proofs.Measure.Store
import SourceGauge.Proofs.Path.Components

/-! The store after any history of saves. It holds the measures whose keys were new when they were
saved, and a look-up finds the first measure that was saved under its key. -/
namespace SourceGauge

/-- Of the measures that are saved after `before`, those whose key was not saved earlier. -/
def Measure.newAfter (before : List Measure) : List Measure → List Measure
  | [] => []
  | m :: rest =>
    if before.any (·.sameKey m) then newAfter (before ++ [m]) rest
    else m :: newAfter (before ++ [m]) rest

namespace Store
open SourceGauge.Measure (Distinct Key newAfter)

/-- The store after some saves into an empty one. A refused save leaves the store as it is. -/
def afterSaves (saved : List Measure) : Store :=
  saved.foldl (fun s m => (s.save m).toOption.getD s) .empty

theorem afterSaves_concat (saved : List Measure) (m : Measure) :
    afterSaves (saved ++ [m]) = ((afterSaves saved).save m).toOption.getD (afterSaves saved) := by
  simp [afterSaves]

theorem newAfter_concat (before saved : List Measure) (m : Measure) :
    newAfter before (saved ++ [m]) =
      newAfter before saved ++ if (before ++ saved).any (·.sameKey m) then [] else [m] := by
  induction saved generalizing before with
  | nil => simp [newAfter]
  | cons n saved ih =>
    rw [List.cons_append, newAfter, newAfter, ih, List.append_assoc, List.singleton_append]
    split <;> simp

/-- The first measure under a key is among those that are kept. -/
theorem find?_newAfter (saved : List Measure) (k : Key) :
    (newAfter [] saved).find? (·.key == k) = saved.find? (·.key == k) := by
  induction saved using List.reverseRecOn with
  | nil => rfl
  | append_singleton saved m ih =>
    rw [newAfter_concat, List.nil_append, List.find?_append, List.find?_append, ih]
    split
    case isTrue hany =>
      -- A measure that is not new has its key from an earlier one.
      obtain ⟨n, hn, hnm⟩ := List.any_eq_true.1 hany
      cases hm : m.key == k with
      | false => simp [hm]
      | true =>
        have hearlier : (saved.find? (·.key == k)).isSome :=
          List.find?_isSome.2 ⟨n, hn, BEq.trans hnm hm⟩
        obtain ⟨first, hfirst⟩ := Option.isSome_iff_exists.1 hearlier
        rw [hfirst, Option.some_or, Option.some_or]
    case isFalse => rfl

theorem any_newAfter (saved : List Measure) (k : Key) :
    (newAfter [] saved).any (·.key == k) = saved.any (·.key == k) := by
  rw [← List.isSome_find?, ← List.isSome_find?, find?_newAfter]

theorem distinct_newAfter (saved : List Measure) : Distinct (newAfter [] saved) := by
  induction saved using List.reverseRecOn with
  | nil => exact .nil
  | append_singleton saved m ih =>
    rw [newAfter_concat, List.nil_append]
    split
    case isTrue => rwa [List.append_nil]
    case isFalse hany =>
      refine List.pairwise_append.2 ⟨ih, List.pairwise_singleton _ _, ?_⟩
      intro n hn m' hm'
      have hkept : (newAfter [] saved).any (·.sameKey m) = false :=
        (any_newAfter saved m.key).trans (eq_false_of_ne_true hany)
      rw [List.mem_singleton.1 hm']
      simpa using List.any_eq_false.1 hkept n hn

/-- What a history of saves leaves: the measures that were new, with their index. -/
theorem afterSaves_eq (saved : List Measure) : afterSaves saved = holding (newAfter [] saved) := by
  induction saved using List.reverseRecOn with
  | nil => rfl
  | append_singleton saved m ih =>
    have hkept : (newAfter [] saved).any (·.sameKey m) = saved.any (·.sameKey m) :=
      any_newAfter saved m.key
    rw [afterSaves_concat, ih, save_holding, newAfter_concat, hkept, List.nil_append]
    split
    · rw [List.append_nil]
      rfl
    · rfl

theorem save_afterSaves (saved : List Measure) (m : Measure) :
    (afterSaves saved).save m =
      if saved.any (·.sameKey m) then .error ⟨m.scope, m.metric⟩
      else .ok (afterSaves (saved ++ [m])) := by
  have hkept : (newAfter [] saved).any (·.sameKey m) = saved.any (·.sameKey m) :=
    any_newAfter saved m.key
  rw [afterSaves_concat, afterSaves_eq, save_holding, hkept]
  split <;> rfl

/-- Any history of saves into an empty store. The store holds the measures with a new key, in save
order and without repeats. A save is refused exactly if its key was saved before, by whichever
spelling of the file, and then nothing changes. A look-up answers the first value that was saved
under its key, and the index leads to nothing else. -/
theorem afterSaves_history (saved : List Measure) :
    (afterSaves saved).measures = newAfter [] saved ∧
      Distinct (afterSaves saved).measures ∧
      (∀ (m : Measure) (e : Duplicate), (afterSaves saved).save m = .error e ↔
        saved.any (·.sameKey m) = true ∧ e = ⟨m.scope, m.metric⟩) ∧
      (∀ m : Measure, saved.any (·.sameKey m) = true →
        afterSaves (saved ++ [m]) = afterSaves saved) ∧
      (∀ (scope : Scope) (metric : Metric), (afterSaves saved).get? scope metric =
        (saved.find? fun m => m.scope.same scope && m.metric = metric).map (·.value)) ∧
      (∀ (k : Key) (place : Nat), (afterSaves saved).index[k]? = some place →
        ∃ m, (afterSaves saved).measures[place]? = some m ∧ m.scope.same k.scope = true ∧
          m.metric = k.metric) ∧
      ∀ a b : List Char, (Path.mk (a ++ '/' :: '/' :: b)).same ⟨a ++ '/' :: b⟩ = true ∧
        (Path.mk (a ++ '/' :: '.' :: '/' :: b)).same ⟨a ++ '/' :: b⟩ = true := by
  have hdistinct := distinct_newAfter saved
  refine ⟨by rw [afterSaves_eq], by rwa [afterSaves_eq], ?_, ?_, ?_, ?_,
    fun a b => ⟨Path.same_repeated_slash a b, Path.same_inner_point a b⟩⟩
  · intro m e
    rw [save_afterSaves]
    split
    case isTrue hany => simp [hany, eq_comm]
    case isFalse hany => simp [hany]
  · intro m hany
    rw [afterSaves_concat, save_afterSaves, if_pos hany]
    rfl
  · intro scope metric
    rw [afterSaves_eq, get?_holding hdistinct]
    exact congrArg (Option.map _) (find?_newAfter saved ⟨scope, metric⟩)
  · intro k place hplace
    rw [afterSaves_eq, getElem?_positions hdistinct] at hplace
    obtain ⟨hlt, hkey, -⟩ := List.findIdx?_eq_some_iff_getElem.1 hplace
    rw [afterSaves_eq]
    exact ⟨_, List.getElem?_eq_getElem hlt, Measure.Key.beq_iff.1 hkey⟩

/-- A second spelling of a file is refused, and a third one finds what the first has saved. -/
theorem afterSaves_history_three_spellings :
    let file (spelling : String) : Scope := .file (.ofString spelling)
    let saved : List Measure :=
      [⟨file "a//b", .linesOfCode, .ofNat 1⟩, ⟨.project, .linesOfCode, .ofNat 3⟩]
    let again : Measure := ⟨file "a/./b", .linesOfCode, .ofNat 2⟩
    saved.any (·.sameKey again) = true ∧
      (afterSaves saved).save again = .error ⟨file "a/./b", .linesOfCode⟩ ∧
      afterSaves (saved ++ [again]) = afterSaves saved ∧
      (afterSaves saved).get? (file "a/b") .linesOfCode = some (.ofNat 1) := by
  intro file saved again
  obtain ⟨-, -, hsave, hsame, hget, -, -⟩ := afterSaves_history saved
  have hagain : saved.any (·.sameKey again) = true := by decide +kernel
  exact ⟨hagain, (hsave again _).2 ⟨hagain, rfl⟩, hsame again hagain, by rw [hget]; rfl⟩

end Store
end SourceGauge
