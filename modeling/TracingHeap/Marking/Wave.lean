import TracingHeap.Marking.Edge
import TracingHeap.Marking.Batch

namespace TracingHeap

structure Tally where
  weak : Array Site
  scanned : Nat
  waves : Nat

namespace Tally

def empty : Tally := ⟨#[], 0, 0⟩

def add (a : Tally) (o : TaskOutput) : Tally :=
  { a with weak := a.weak ++ o.weak, scanned := a.scanned + o.scanned }

end Tally

structure TraceState where
  table : Table
  pool : ScratchPool
  /-- One output for each task, used by every wave. -/
  outputs : List TaskOutput
  tally : Tally

/-- How waves are run: the workers, if there are any, and the least size of a batch. -/
structure WavePlan where
  workers : Option Nat
  least : Nat

namespace Tracer

def runTask (t : Tracer) (m : Marking) (batch : List Handle) : Except Fault Marking :=
  batch.foldlM t.process
    { m with pool := m.pool.acquire, output := { m.output with reached := #[] } }

/-- A wave taken by the first task alone. Its scratch list is the next wave. -/
def serialWave (t : Tracer) (wave : List Handle) (s : TraceState) :
    Except Fault (List Handle × TraceState) :=
  match s.outputs with
  | [] => .error (.taskRange 1 0)
  | output :: rest => do
    let m ← t.runTask ⟨s.table, s.pool, output⟩ wave
    return (m.output.reached.toList,
      ⟨m.table, m.pool, .empty :: rest, s.tally.add m.output⟩)

def runTasks (t : Tracer) : List (TaskOutput × List Handle) → Table → ScratchPool →
    Except Fault (List TaskOutput × Table × ScratchPool)
  | [], table, pool => .ok ([], table, pool)
  | (output, batch) :: rest, table, pool => do
    let m ← t.runTask ⟨table, pool, output⟩ batch
    let (done, table, pool) ← t.runTasks rest m.table m.pool
    return (m.output :: done, table, pool)

/-- A wave cut into batches. The next wave is what the tasks claimed, task after task. -/
def batchedWave (t : Tracer) (workers least : Nat) (wave : List Handle) (s : TraceState) :
    Except Fault (List Handle × TraceState) := do
  let batch := batchSize wave.length workers s.outputs.length least
  let tasks := taskCount wave.length batch
  if s.outputs.length < tasks then
    throw (.taskRange tasks s.outputs.length)
  let (done, table, pool) ←
    t.runTasks ((s.outputs.take tasks).zip (chunks batch wave)) s.table s.pool
  let pool := done.foldl (fun p _ => p.release) pool.acquire
  let idle := done.map fun _ => TaskOutput.empty
  return (done.flatMap (·.reached.toList),
    ⟨table, pool, idle ++ s.outputs.drop tasks, done.foldl Tally.add s.tally⟩)

/-- Runs one wave, in batches if there are workers and objects enough for two. -/
def wave (t : Tracer) (plan : WavePlan) (current : List Handle) (s : TraceState) :
    Except Fault (List Handle × TraceState) := do
  let s := { s with tally := { s.tally with waves := s.tally.waves + 1 } }
  match plan.workers with
  | none => t.serialWave current s
  | some workers =>
    let enough ← mulSizes 2 plan.least
    if enough ≤ current.length then t.batchedWave workers plan.least current s
    else t.serialWave current s

/-- Runs wave after wave until one claims nothing. Each object is claimed once, so one more than
the number of slots bounds the waves. -/
def waves (t : Tracer) (plan : WavePlan) : Nat → List Handle → TraceState →
    Except Fault TraceState
  | _, [], s => .ok { s with pool := s.pool.release }
  | 0, _ :: _, _ => .error .exhausted
  | fuel + 1, current, s => do
    let (next, s) ← t.wave plan current s
    t.waves plan fuel next { s with pool := s.pool.release }

def trace (t : Tracer) (plan : WavePlan) (frontier : List Handle) (table : Table)
    (pool : ScratchPool) (tally : Tally) : Except Fault TraceState :=
  let tasks := plan.workers.getD 1
  t.waves plan (table.capacity + 1) frontier
    ⟨table, pool, List.replicate tasks .empty, tally⟩

end Tracer

end TracingHeap
