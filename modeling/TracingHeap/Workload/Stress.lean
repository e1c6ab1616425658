import TracingHeap.Collector.TimeLimit
import TracingHeap.Report
import TracingHeap.Workload.Graph

namespace TracingHeap

def timePiece : Piece := .measured "0.000"

namespace Statistics

def lines (s : Statistics) : List Line :=
  [⟨[.plain ("collect:     " ++ toString s.considered ++ " considered, " ++ toString s.scanned
        ++ " scanned, " ++ toString s.unreachable ++ " unreachable in "),
      .measured "0", .plain " ms"]⟩,
    .plain ("             " ++ toString s.waves ++ " waves ("
      ++ (if s.parallel then "parallel" else "serial") ++ "), " ++ toString s.dissolved
      ++ " clusters dissolved, " ++ toString s.weakCleared ++ " weak references cleared")]
  ++ s.phases.map fun p => ⟨[.plain ("  " ++ padRight 24 p.name ++ " " ++ "     "),
      timePiece, .plain " ms"]⟩

end Statistics

namespace Stress

/-- Builds the graph and collects it; what is unreachable is left to be purged. -/
def collect (settings : Settings) (processors : Nat) (spec : GraphSpec) :
    Except Failure (Statistics × Collector) := do
  let (_, _, c) ← Collector.withGraph settings processors spec
  (c.collect .empty false).mapError .fault

structure Rest where
  /-- What each step of the purge freed. -/
  freed : List Nat
  /-- The second collection. -/
  second : Statistics
  collector : Collector

/-- A number of steps that is enough for a purge without objects to wait for: every step deals
with at least one slot, first to destroy and then to free. -/
def mostSteps (t : Table) : Nat := 2 * t.capacity + 2

/-- Purges step by step and collects once more. -/
def finish (clocks : Clocks) (c : Collector) : Except Fault Rest := do
  let limit ← c.settings.purgeLimit
  let (freed, completed, c) ← Collector.purgeSteps (some limit) clocks (mostSteps c.table) c
  if !completed then throw .exhausted
  let (second, c) ← c.collect .empty true
  return ⟨freed, second, c⟩

namespace Rest

def purged (r : Rest) : Nat := r.freed.foldl (· + ·) 0

def lines (r : Rest) : List Line :=
  let pool := r.collector.pool
  [⟨[.plain ("purge:       " ++ toString r.purged ++ " objects in "
        ++ toString r.freed.length ++ " steps ("),
      timePiece, .plain " ms)"]⟩,
    .plain ("recollect:   " ++ toString r.second.unreachable ++ " unreachable, "
      ++ toString r.collector.objectCount ++ " live"),
    ⟨[.plain ("array pool:  " ++ toString pool.acquired ++ " acquired, " ++ toString pool.released
        ++ " released, "), .scheduled (toString pool.allocated), .plain " allocated"]⟩]

end Rest

/-- Runs a stress test. The answer is the report, as far as it comes, and what ended it. -/
def run (settings : Settings) (processors : Nat) (clocks : Clocks) (spec : GraphSpec) :
    List Line × Option Failure :=
  match collect settings processors spec with
  | .error f => ([], some f)
  | .ok (first, c) => match finish clocks c with
    | .error f => (first.lines, some (.fault f))
    | .ok rest => (first.lines ++ rest.lines, none)

end Stress

end TracingHeap
