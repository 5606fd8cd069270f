import Mathlib.Data.List.Basic
import Mathlib.Data.List.Induction
import SourceGauge.Measure.Store

/-! Saving measures that differ in scope or metric: none is refused, and each is kept behind those
that were saved before it. The list and its index keep in step. -/
namespace SourceGauge

namespace Measure

/-- No two of the measures answer the same question. -/
def Distinct (ms : List Measure) : Prop := ms.Pairwise fun m n => m.sameKey n = false

end Measure

namespace Store
open SourceGauge.Measure (Distinct Key)

/-- The index of a list of measures. -/
def positions (ms : List Measure) : Std.HashMap Key Nat :=
  ms.zipIdx.foldl (fun index entry => index.insert entry.1.key entry.2) ∅

/-- The store that holds these measures. -/
abbrev holding (ms : List Measure) : Store := ⟨ms, positions ms⟩

theorem positions_concat (ms : List Measure) (m : Measure) :
    positions (ms ++ [m]) = (positions ms).insert m.key ms.length := by
  simp [positions, List.zipIdx_append]

theorem contains_positions (ms : List Measure) (k : Key) :
    (positions ms).contains k = ms.any (·.key == k) := by
  induction ms using List.reverseRecOn with
  | nil => simp [positions]
  | append_singleton ms m ih =>
    rw [positions_concat, Std.HashMap.contains_insert, ih, List.any_append, Bool.or_comm]
    simp

/-- In a list without repeats the index finds the measure of a key. -/
theorem getElem?_positions {ms : List Measure} (h : Distinct ms) (k : Key) :
    (positions ms)[k]? = ms.findIdx? (·.key == k) := by
  induction ms using List.reverseRecOn with
  | nil => simp [positions]
  | append_singleton ms m ih =>
    obtain ⟨hms, -, hfresh⟩ := List.pairwise_append.1 h
    rw [positions_concat, Std.HashMap.getElem?_insert, ih hms, List.findIdx?_append]
    by_cases hk : (m.key == k) = true
    · have hnone : ms.findIdx? (·.key == k) = none := by
        rw [List.findIdx?_eq_none_iff]
        intro n hn
        have hnm : (n.key == m.key) = false := hfresh n hn m List.mem_cons_self
        rw [← BEq.congr_right hk, hnm]
      simp [hk, hnone]
    · simp [hk]

theorem get?_holding {ms : List Measure} (h : Distinct ms) (scope : Scope) (metric : Metric) :
    (holding ms).get? scope metric =
      (ms.find? fun m => m.scope.same scope && m.metric = metric).map (·.value) := by
  change _ = (ms.find? (·.key == ⟨scope, metric⟩)).map (·.value)
  rw [get?, getElem?_positions h, List.find?_eq_bind_findIdx?_getElem?]
  cases ms.findIdx? (·.key == ⟨scope, metric⟩) with
  | none => rfl
  | some place =>
    rw [Option.map_eq_bind]
    rfl

theorem save_holding (ms : List Measure) (m : Measure) :
    (holding ms).save m =
      if ms.any (·.sameKey m) then .error ⟨m.scope, m.metric⟩ else .ok (holding (ms ++ [m])) := by
  simp only [save, holding, contains_positions, positions_concat]
  rfl

theorem publish_of_fresh {ms : List Measure} {m : Measure} (h : ∀ n ∈ ms, n.sameKey m = false) :
    (holding ms).publish m = pure (holding (ms ++ [m])) := by
  have hany : ms.any (·.sameKey m) = false := by simpa using h
  simp [publish, save_holding, hany]

theorem publishAll_of_distinct {saved ms : List Measure} (h : Distinct (saved ++ ms)) :
    (holding saved).publishAll ms = pure (holding (saved ++ ms)) := by
  induction ms generalizing saved with
  | nil => simp [publishAll]
  | cons m ms ih =>
    have hfresh : ∀ n ∈ saved, n.sameKey m = false := fun n hn =>
      (List.pairwise_append.1 h).2.2 n hn m List.mem_cons_self
    rw [List.append_cons] at h ⊢
    change (holding saved).publish m >>= (·.publishAll ms) = _
    rw [publish_of_fresh hfresh]
    exact ih h

end Store
end SourceGauge
