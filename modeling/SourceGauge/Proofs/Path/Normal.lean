import Mathlib
import SourceGauge.Path.Normal

/-! Normal forms of paths. A path is made shorter by dropping points, and by dropping steps up with
the names before them, in any order. What is left in the end is the same in every order, and it is
what folding the components gives, unless the path leads above the root. -/
namespace SourceGauge.Path
open Relation (ReflTransGen)

/-- One detour less: a point goes, or a step up and the name right before it. -/
inductive Shortens : List Component → List Component → Prop
  | point (front back : List Component) : Shortens (front ++ .current :: back) (front ++ back)
  | stepUp (front : List Component) (name : List Char) (back : List Component) :
      Shortens (front ++ .name name :: .parent :: back) (front ++ back)

/-- No detours: names after the root, or after some steps up. -/
inductive IsNormal : List Component → Prop
  | absolute (names : List (List Char)) : IsNormal (.root :: names.map .name)
  | relative (ups : Nat) (names : List (List Char)) :
      IsNormal (List.replicate ups Component.parent ++ names.map Component.name)

def isName : Component → Bool
  | .name _ => true
  | _ => false

/-- From `depth` names below a place, some front part of the components leads above it. -/
def StepsAbove (depth : Nat) (cs : List Component) : Prop :=
  ∃ front, front <+: cs ∧ depth + front.countP isName < front.count .parent

/-- An absolute path that leads above the root on its way. -/
def EscapesRoot (cs : List Component) : Prop := cs.head? = some .root ∧ StepsAbove 0 cs

section StepsAbove
variable {depth : Nat} {cs : List Component}

theorem stepsAbove_cons (c : Component) :
    StepsAbove depth (c :: cs) ↔
      ∃ front, front <+: cs ∧ depth + (c :: front).countP isName < (c :: front).count .parent := by
  constructor
  · rintro ⟨front, hfront, hlt⟩
    cases front with
    | nil => simp at hlt
    | cons d front =>
      obtain ⟨rfl, htail⟩ := List.cons_prefix_cons.1 hfront
      exact ⟨front, htail, hlt⟩
  · rintro ⟨front, hfront, hlt⟩
    exact ⟨c :: front, List.cons_prefix_cons.2 ⟨rfl, hfront⟩, hlt⟩

theorem not_stepsAbove_nil : ¬ StepsAbove depth [] := by
  rintro ⟨front, hfront, hlt⟩
  rw [List.prefix_nil.1 hfront] at hlt
  simp at hlt

theorem stepsAbove_root : StepsAbove depth (.root :: cs) ↔ StepsAbove depth cs := by
  rw [stepsAbove_cons]
  simp [StepsAbove, isName]

theorem stepsAbove_current : StepsAbove depth (.current :: cs) ↔ StepsAbove depth cs := by
  rw [stepsAbove_cons]
  simp [StepsAbove, isName]

theorem stepsAbove_name (name : List Char) :
    StepsAbove depth (.name name :: cs) ↔ StepsAbove (depth + 1) cs := by
  rw [stepsAbove_cons]
  simp [StepsAbove, List.countP_cons, isName, Nat.add_right_comm, Nat.add_assoc]

theorem stepsAbove_parent_zero : StepsAbove 0 (.parent :: cs) :=
  (stepsAbove_cons _).2 ⟨[], List.nil_prefix, by simp [isName]⟩

theorem stepsAbove_parent_succ :
    StepsAbove (depth + 1) (.parent :: cs) ↔ StepsAbove depth cs := by
  rw [stepsAbove_cons]
  simp [StepsAbove, isName, Nat.add_right_comm]

end StepsAbove

theorem normalize_name (kept : List Component) (name : List Char) (cs : List Component) :
    normalize kept (.name name :: cs) = normalize (.name name :: kept) cs := by
  rw [normalize] <;> simp

/-- An absolute path is folded up to a place above the root, if it leads there. -/
theorem normalize_absolute {cs : List Component} (hcs : .root ∉ cs) (names : List (List Char)) :
    (StepsAbove names.length cs ∧
      normalize (Component.root :: names.map .name).reverse cs = .error .escapesRoot) ∨
    ¬ StepsAbove names.length cs ∧ ∃ left : List (List Char),
      normalize (Component.root :: names.map .name).reverse cs = .ok (.root :: left.map .name) ∧
      ReflTransGen Shortens (Component.root :: names.map .name ++ cs)
        (.root :: left.map .name) := by
  -- Above the root stand the names that no step up has cancelled yet.
  induction cs generalizing names with
  | nil =>
    refine .inr ⟨not_stepsAbove_nil, names, ?_, ?_⟩
    · rw [normalize, List.reverse_reverse]
    · rw [List.append_nil]
  | cons c cs ih =>
    rw [List.mem_cons, not_or] at hcs
    obtain ⟨hc, hcs⟩ := hcs
    cases c with
    | root => exact (hc rfl).elim
    | current =>
      rw [stepsAbove_current, normalize]
      refine (ih hcs names).imp_right fun ⟨hstays, left, hleft, hshorter⟩ =>
        ⟨hstays, left, hleft, .head ?_ hshorter⟩
      exact .point (.root :: names.map .name) cs
    | name name =>
      have hmore := ih hcs (names ++ [name])
      have hnames : (.root :: (names ++ [name]).map .name : List Component).reverse =
          .name name :: (.root :: names.map .name).reverse := by simp
      rw [stepsAbove_name, normalize_name, ← hnames]
      simpa using hmore
    | parent =>
      rcases List.eq_nil_or_concat names with rfl | ⟨names, name, rfl⟩
      · exact .inl ⟨stepsAbove_parent_zero, rfl⟩
      · rw [List.length_concat, stepsAbove_parent_succ]
        have hnormalize : normalize (.root :: (names.concat name).map .name).reverse
            (.parent :: cs) = normalize (.root :: names.map .name).reverse cs := by
          simp [normalize]
        rw [hnormalize]
        refine (ih hcs names).imp_right fun ⟨hstays, left, hleft, hshorter⟩ =>
          ⟨hstays, left, hleft, .head ?_ hshorter⟩
        simpa using Shortens.stepUp (.root :: names.map .name) name cs

theorem normalize_parent_ups (ups : Nat) (cs : List Component) :
    normalize (List.replicate ups .parent) (.parent :: cs) =
      normalize (List.replicate (ups + 1) .parent) cs := by
  cases ups <;> rfl

/-- A relative path is folded to its end. -/
theorem normalize_relative {cs : List Component} (hcs : .root ∉ cs) (ups : Nat)
    (names : List (List Char)) :
    ∃ (more : Nat) (left : List (List Char)),
      normalize (List.replicate ups Component.parent ++ names.map Component.name).reverse cs =
          .ok (List.replicate more Component.parent ++ left.map Component.name) ∧
      ReflTransGen Shortens
        (List.replicate ups Component.parent ++ names.map Component.name ++ cs)
        (List.replicate more Component.parent ++ left.map Component.name) := by
  -- Steps up gather below the names, and one more joins them only when no name is left.
  induction cs generalizing ups names with
  | nil =>
    refine ⟨ups, names, ?_, ?_⟩
    · rw [normalize, List.reverse_reverse]
    · rw [List.append_nil]
  | cons c cs ih =>
    rw [List.mem_cons, not_or] at hcs
    obtain ⟨hc, hcs⟩ := hcs
    cases c with
    | root => exact (hc rfl).elim
    | current =>
      obtain ⟨more, left, hleft, hshorter⟩ := ih hcs ups names
      refine ⟨more, left, by rwa [normalize], .head ?_ hshorter⟩
      exact .point (List.replicate ups .parent ++ names.map .name) cs
    | name name =>
      obtain ⟨more, left, hleft, hshorter⟩ := ih hcs ups (names ++ [name])
      exact ⟨more, left, by simpa [normalize_name] using hleft, by simpa using hshorter⟩
    | parent =>
      rcases List.eq_nil_or_concat names with rfl | ⟨names, name, rfl⟩
      · obtain ⟨more, left, hleft, hshorter⟩ := ih hcs (ups + 1) []
        refine ⟨more, left, ?_, ?_⟩
        · simpa [normalize_parent_ups] using hleft
        · simpa [List.replicate_succ'] using hshorter
      · obtain ⟨more, left, hleft, hshorter⟩ := ih hcs ups names
        refine ⟨more, left, ?_, .head ?_ hshorter⟩
        · simpa [normalize] using hleft
        · have hstep := Shortens.stepUp (List.replicate ups .parent ++ names.map .name) name cs
          rw [List.append_assoc, List.append_assoc] at hstep
          simpa using hstep

/-- What is folded first does not see how the rest is spelled. -/
theorem normalize_append_congr {xs ys : List Component}
    (h : ∀ kept, normalize kept xs = normalize kept ys) (front kept : List Component) :
    normalize kept (front ++ xs) = normalize kept (front ++ ys) := by
  induction front generalizing kept with
  | nil => exact h kept
  | cons c front ih =>
    cases c with
    | parent =>
      cases kept with
      | nil => exact ih [.parent]
      | cons d kept =>
        cases d with
        | root => rfl
        | current => exact ih (.parent :: .current :: kept)
        | parent => exact ih (.parent :: .parent :: kept)
        | name name => exact ih kept
    | _ => simp [normalize, ih]

theorem Shortens.sublist {xs ys : List Component} (h : Shortens xs ys) : ys.Sublist xs := by
  cases h with
  | point front back => exact (List.sublist_cons_self _ _).append_left front
  | stepUp front name back =>
    exact ((List.sublist_cons_self _ _).trans (List.sublist_cons_self _ _)).append_left front

theorem sublist_of_shortens {xs ys : List Component} (h : ReflTransGen Shortens xs ys) :
    ys.Sublist xs := by
  induction h with
  | refl => exact .refl xs
  | tail _ hstep ih => exact hstep.sublist.trans ih

/-- The fold does not notice that a detour is gone. -/
theorem Shortens.normalize_eq {xs ys : List Component} (h : Shortens xs ys)
    (kept : List Component) : normalize kept xs = normalize kept ys := by
  cases h with
  | point front back => exact normalize_append_congr (fun kept => by rw [normalize]) front kept
  | stepUp front name back =>
    exact normalize_append_congr (fun kept => by rw [normalize_name, normalize]) front kept

theorem normalize_eq_of_shortens {xs ys : List Component} (h : ReflTransGen Shortens xs ys) :
    normalize [] xs = normalize [] ys := by
  induction h with
  | refl => rfl
  | tail _ hstep ih => rw [ih, hstep.normalize_eq]

theorem normalize_names (kept : List Component) (names : List (List Char)) :
    normalize kept (names.map .name) = .ok (kept.reverse ++ names.map .name) := by
  induction names generalizing kept with
  | nil => simp [normalize]
  | cons name names ih => rw [List.map_cons, normalize_name, ih]; simp

theorem normalize_ups (more ups : Nat) (cs : List Component) :
    normalize (List.replicate more .parent) (List.replicate ups .parent ++ cs) =
      normalize (List.replicate (more + ups) .parent) cs := by
  induction ups generalizing more with
  | zero => rfl
  | succ ups ih =>
    rw [List.replicate_succ, List.cons_append, normalize_parent_ups, ih, Nat.add_right_comm,
      Nat.add_assoc]

theorem IsNormal.normalize_eq {cs : List Component} (h : IsNormal cs) :
    normalize [] cs = .ok cs := by
  cases h with
  | absolute names =>
    exact normalize_names [.root] names
  | relative ups names =>
    have hups := normalize_ups 0 ups (names.map .name)
    rw [Nat.zero_add, normalize_names, List.reverse_replicate] at hups
    exact hups

/-- The fold reaches a normal form, unless the path leads above the root. -/
theorem normalize_cases {cs : List Component} (hroot : .root ∉ cs.tail) :
    (EscapesRoot cs ∧ normalize [] cs = .error .escapesRoot) ∨
      ¬ EscapesRoot cs ∧ ∃ out, normalize [] cs = .ok out ∧ IsNormal out ∧
        ReflTransGen Shortens cs out := by
  by_cases hhead : cs.head? = some .root
  · obtain ⟨cs, rfl⟩ := List.head?_eq_some_iff.1 hhead
    have hescapes : EscapesRoot (.root :: cs) ↔ StepsAbove 0 cs := by
      simp [EscapesRoot, stepsAbove_root]
    rw [hescapes]
    refine (normalize_absolute hroot []).imp_right fun ⟨hstays, left, hleft, hshorter⟩ => ?_
    exact ⟨hstays, _, hleft, .absolute left, hshorter⟩
  · have hcs : .root ∉ cs := by
      cases cs with
      | nil => exact List.not_mem_nil
      | cons c cs =>
        refine List.not_mem_cons_of_ne_of_not_mem ?_ hroot
        rintro rfl
        exact hhead rfl
    obtain ⟨more, left, hleft, hshorter⟩ := normalize_relative hcs 0 []
    exact .inr ⟨fun h => hhead h.1, _, hleft, .relative more left, hshorter⟩

/-- The fold gives the normal form of the components, and there is only one. -/
theorem normalize_eq_ok_iff {cs out : List Component} (hroot : .root ∉ cs.tail) :
    normalize [] cs = .ok out ↔ IsNormal out ∧ ReflTransGen Shortens cs out := by
  constructor
  · intro h
    rcases normalize_cases hroot with ⟨-, herror⟩ | ⟨-, left, hleft, hnormal, hshorter⟩
    · cases h.symm.trans herror
    · obtain rfl := Except.ok.inj (h.symm.trans hleft)
      exact ⟨hnormal, hshorter⟩
  · rintro ⟨hnormal, hshorter⟩
    rw [normalize_eq_of_shortens hshorter, hnormal.normalize_eq]

theorem normalize_eq_error_iff {cs : List Component} (hroot : .root ∉ cs.tail) :
    (∃ e, normalize [] cs = .error e) ↔ EscapesRoot cs := by
  rcases normalize_cases hroot with ⟨hescapes, herror⟩ | ⟨hstays, left, hleft, -⟩
  · simp [hescapes, herror]
  · simp [hstays, hleft]

end SourceGauge.Path
