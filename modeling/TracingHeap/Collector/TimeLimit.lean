import TracingHeap.Collector.Collection
import TracingHeap.Timing.Stopwatch

namespace TracingHeap

/-- A deadline has passed as soon as more time than the limit has gone by. -/
def Deadline.after (limit : Duration) (clock : Clock) : Deadline :=
  ⟨fun n => (Stopwatch.mk (some limit)).exceeded (clock.elapsed n)⟩

namespace Collector

def purgeFor (c : Collector) (limit : Option Duration) (clock : Clock) :
    Except Fault (Progress × Collector) :=
  c.runPurge (limit.map (Deadline.after · clock))

/-- Carries the pending purge on, to its end or for the time that the settings allow. -/
def purgeStep (c : Collector) (limited : Bool) (clock : Clock) :
    Except Fault (Progress × Collector) :=
  if limited then do c.purgeFor (some (← c.settings.purgeLimit)) clock
  else c.purgeFor none clock

/-- Repeats a limited step, the first of them being step `i`, until the purge is complete, but no more than
`most` times. The answer is what each step freed and whether the purge is complete. -/
def purgeStepsFrom (limit : Option Duration) (clocks : Clocks) : (i most : Nat) → Collector →
    Except Fault (List Nat × Bool × Collector)
  | _, 0, c => .ok ([], false, c)
  | i, n + 1, c => do
    let (progress, c) ← c.purgeFor limit (clocks.step i)
    if progress.completed then return ([progress.purged], true, c)
    else
      let (rest, completed, c) ← purgeStepsFrom limit clocks (i + 1) n c
      return (progress.purged :: rest, completed, c)

def purgeSteps (limit : Option Duration) (clocks : Clocks) (most : Nat) (c : Collector) :
    Except Fault (List Nat × Bool × Collector) :=
  purgeStepsFrom limit clocks 0 most c

end Collector

end TracingHeap
