/-! Log events, and values that come with the events that arose on the way. -/
namespace SourceGauge

inductive Level
  | error
  | warn
  | info
  | debug
  deriving DecidableEq, Repr

def Level.name : Level → String
  | .error => "error"
  | .warn => "warn"
  | .info => "info"
  | .debug => "debug"

structure Event where
  level : Level
  message : String
  deriving DecidableEq, Repr

/-- A value with the events logged while it was made, in order. -/
structure Logged (α : Type) where
  value : α
  log : List Event
  deriving DecidableEq, Repr

namespace Logged

instance : Monad Logged where
  pure a := ⟨a, []⟩
  bind x f := ⟨(f x.value).value, x.log ++ (f x.value).log⟩

def event (level : Level) (message : String) : Logged Unit := ⟨(), [⟨level, message⟩]⟩

def error (message : String) : Logged Unit := event .error message
def warn (message : String) : Logged Unit := event .warn message
def info (message : String) : Logged Unit := event .info message
def debug (message : String) : Logged Unit := event .debug message

@[simp] theorem value_pure {α : Type} (a : α) : (pure a : Logged α).value = a := rfl

@[simp] theorem log_pure {α : Type} (a : α) : (pure a : Logged α).log = [] := rfl

@[simp] theorem value_bind {α β : Type} (x : Logged α) (f : α → Logged β) :
    (x >>= f).value = (f x.value).value := rfl

@[simp] theorem log_bind {α β : Type} (x : Logged α) (f : α → Logged β) :
    (x >>= f).log = x.log ++ (f x.value).log := rfl

end Logged
end SourceGauge
