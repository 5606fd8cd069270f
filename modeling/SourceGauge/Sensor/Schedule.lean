import SourceGauge.Sensor.Basic
import SourceGauge.Sensor.Countdown
import SourceGauge.Sensor.Order

/-! Schedules: registered sensors, the order in which they run, and the run itself. -/
namespace SourceGauge

/-- Sensors in the order of their registration. -/
abbrev Schedule := List Sensor

/-- Sensors that depend on each other, in the order of their registration. -/
structure Cycle where
  names : List String
  deriving DecidableEq, Repr

def Cycle.message (c : Cycle) : String :=
  "sensor dependency cycle: " ++ " -> ".intercalate c.names

namespace Schedule

/-- The sensor with number `i` must run before another one, with number `j`. -/
def before (s : Schedule) (i j : Nat) : Bool :=
  match s[i]?, s[j]? with
  | some provider, some dependent => i ≠ j && provider.feeds dependent
  | _, _ => false

/-- The sensors with the given numbers. -/
def pick (s : Schedule) (numbers : List Nat) : List Sensor := numbers.filterMap fun i => s[i]?

/-- Every provider runs before those that depend on it. Of several sensors that could run next,
the one registered first does. -/
def ordered (s : Schedule) : Except Cycle (List Sensor) :=
  match Order.cycle? s.before s.length with
  | some members => .error ⟨(s.pick members).map (·.name)⟩
  | none => .ok (s.pick (Order.countdown s.before s.length))

/-- Runs one sensor if it wants to, and notes its name. -/
def runSensor (project : Project) (state : Store × List String) (sensor : Sensor) :
    Logged (Store × List String) := do
  let (store, executed) := state
  if sensor.shouldExecute project then
    Logged.info s!"Sensor {sensor.name} started"
    return (← sensor.analyse project store, executed ++ [sensor.name])
  else
    Logged.info s!"Sensor {sensor.name} skipped"
    return state

/-- Runs all sensors in order. The result is the store and the names of those that ran. -/
def run (s : Schedule) (project : Project) (store : Store) :
    Except Cycle (Logged (Store × List String)) :=
  s.ordered.map fun sensors => sensors.foldlM (runSensor project) (store, [])

end Schedule
end SourceGauge
