/-! Settings: free-form keys with text values. -/
namespace SourceGauge

/-- Each key stands once, at the place where it was first set. -/
structure Settings where
  entries : List (String × String)
  deriving DecidableEq, Repr

namespace Settings

def empty : Settings := ⟨[]⟩

def get? (s : Settings) (key : String) : Option String := s.entries.lookup key

/-- Replaces the value of a key, or adds the key at the end. -/
def put (key value : String) : List (String × String) → List (String × String)
  | [] => [(key, value)]
  | (k, v) :: rest => if k = key then (k, value) :: rest else (k, v) :: put key value rest

def set (s : Settings) (key value : String) : Settings := ⟨put key value s.entries⟩

theorem lookup_put (key value other : String) (entries : List (String × String)) :
    (put key value entries).lookup other =
      if other = key then some value else entries.lookup other := by
  induction entries with
  | nil => by_cases h : other = key <;> simp [put, List.lookup_cons, h, beq_eq_false_iff_ne.2]
  | cons e rest ih =>
    obtain ⟨k, v⟩ := e
    by_cases hk : k = key <;> by_cases ho : other = k <;>
      simp_all [put, List.lookup_cons, beq_eq_false_iff_ne.2]

@[simp] theorem get?_set (s : Settings) (key value other : String) :
    (s.set key value).get? other = if other = key then some value else s.get? other :=
  lookup_put key value other s.entries

end Settings
end SourceGauge
