import TracingHeap.Collector.Collection
import TracingHeap.Timing.Benchmark
import TracingHeap.Workload.Graph

namespace TracingHeap

namespace Bench

/-- The garbage of a round: a smaller graph without roots, with a seed of its own. -/
def garbage (spec : GraphSpec) (round : Nat) : GraphSpec :=
  { spec with
    objects := spec.objects / 4
    roots := 0
    clusters := spec.clusters / 4
    seed := spec.seed + UInt64.ofNat round }

def cycle (id : ClassId) (spec : GraphSpec) (round : Nat) (c : Collector) :
    Except Failure Collector := do
  let (_, c) ← c.populate id (garbage spec round)
  let (_, c) ← (c.collect .empty true).mapError .fault
  return c

structure Outcome where
  result : BenchmarkResult
  /-- The objects that survived the first collection. -/
  live : Nat
  roots : Nat
  /-- The objects in the garbage of each round. -/
  added : Nat

def run (settings : Settings) (processors : Nat) (spec : GraphSpec) (iterations : Nat) :
    Except Failure Outcome := do
  let (roots, id, c) ← Collector.withGraph settings processors spec
  let (_, c) ← (c.collect .empty true).mapError .fault
  let b := Benchmark.ofIterations "collect_garbage" iterations
  let _ ← b.run (cycle id spec) c
  return {
    result := ⟨b.name, List.replicate b.iterations .zero⟩
    live := c.objectCount
    roots
    added := (garbage spec 0).objects }

namespace Outcome

def lines (o : Outcome) : Except Fault (List Line) := do
  let table ← o.result.lines
  let rate ← o.result.throughput (o.live + o.added)
  return table ++ [.plain "",
    ⟨[.plain ("Live objects: " ++ toString o.live ++ " (" ++ toString o.roots
        ++ " roots), throughput "), .measured (floatText rate), .plain " objects/s"]⟩]

end Outcome

end Bench

end TracingHeap
