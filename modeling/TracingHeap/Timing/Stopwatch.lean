import TracingHeap.Duration

namespace TracingHeap

/-- The time that has gone by at each look at the clock. -/
structure Clock where
  elapsed : Nat → Duration

namespace Clock

def still (d : Duration) : Clock := ⟨fun _ => d⟩

/-- A clock on which hardly any time goes by, but some. -/
def quick : Clock := still ⟨100⟩

end Clock

/-- The clocks of successive steps of some work. Each step starts a clock of its own. -/
structure Clocks where
  step : Nat → Clock

namespace Clocks

def quick : Clocks := ⟨fun _ => .quick⟩

end Clocks

structure Stopwatch where
  limit : Option Duration

namespace Stopwatch

/-- Whether more time than the limit has gone by. Without a limit none is too much. -/
def exceeded (w : Stopwatch) (elapsed : Duration) : Bool :=
  match w.limit with
  | some limit => decide (limit.nanos < elapsed.nanos)
  | none => false

end Stopwatch

end TracingHeap
