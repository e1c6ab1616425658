import TracingHeap.Duration
import TracingHeap.Report

namespace TracingHeap

/-- How often work is run: the warm-up runs first, which are not measured. -/
structure Benchmark where
  name : String
  iterations : Nat
  warmup : Nat
deriving DecidableEq

namespace Benchmark

/-- At least one iteration, after a warm-up of a tenth of them but no more than ten runs. -/
def ofIterations (name : String) (iterations : Nat) : Benchmark :=
  let n := max iterations 1
  ⟨name, n, min (n / 10) 10⟩

def withWarmup (b : Benchmark) (warmup : Nat) : Benchmark := { b with warmup := warmup }

def sampleBytes : Nat := 16

/-- Runs the work as often as the benchmark says, the number of each run being given to it. The
times are stored from the end of the warm-up on. -/
def run {σ : Type} (b : Benchmark) (work : Nat → σ → Except Failure σ) (s : σ) :
    Except Failure σ := do
  let s ← (List.range b.warmup).foldlM (fun s i => work (i + 1) s) s
  (reserve b.iterations sampleBytes).mapError .fault
  (List.range b.iterations).foldlM (fun s i => work (b.warmup + i + 1) s) s

end Benchmark

structure BenchmarkResult where
  name : String
  samples : List Duration
deriving DecidableEq

namespace BenchmarkResult

def iterations (r : BenchmarkResult) : Nat := r.samples.length

/-- The mean, rounded down to a nanosecond. -/
def mean (r : BenchmarkResult) : Except Fault Duration :=
  if r.samples.isEmpty then .ok .zero
  else do return ⟨(← Duration.sum r.samples).nanos / r.samples.length⟩

def sorted (r : BenchmarkResult) : List Duration :=
  r.samples.mergeSort fun a b => Nat.ble a.nanos b.nanos

/-- The middle one of the times, the later of two. -/
def median (r : BenchmarkResult) : Duration := r.sorted[r.samples.length / 2]?.getD .zero

def min (r : BenchmarkResult) : Duration := r.sorted.head?.getD .zero

def max (r : BenchmarkResult) : Duration := r.sorted.getLast?.getD .zero

def deviation (r : BenchmarkResult) : Except Fault Duration :=
  if r.samples.isEmpty then .ok .zero
  else do
    let mean := (← r.mean).toFloat
    let squares := r.samples.map fun d => (d.toFloat - mean) * (d.toFloat - mean)
    Duration.ofFloat (squares.foldl (· + ·) 0.0 / r.samples.length.toUInt64.toFloat).sqrt

def throughput (r : BenchmarkResult) (items : Nat) : Except Fault Float := do
  let mean := (← r.mean).toFloat
  return if mean == 0.0 then 0.0 else items.toUInt64.toFloat / mean

def timeLine (label : String) (d : Duration) : Line :=
  ⟨[.plain ("  " ++ padRight 12 label), .measured d.text]⟩

def lines (r : BenchmarkResult) : Except Fault (List Line) := do
  let mean ← r.mean
  let deviation ← r.deviation
  return [Line.plain ("Benchmark: " ++ r.name),
    Line.plain ("  Iterations: " ++ toString r.iterations),
    timeLine "Mean:" mean,
    timeLine "Median:" r.median,
    timeLine "Min:" r.min,
    timeLine "Max:" r.max,
    timeLine "Std Dev:" deviation]

def text (r : BenchmarkResult) : Except Fault String := do
  return String.join ((← r.lines).map fun l => l.text ++ "\n")

end BenchmarkResult

end TracingHeap
