import TracingHeap.Command.Help
import TracingHeap.Settings.Environment
import TracingHeap.Workload.Bench
import TracingHeap.Workload.Stress

namespace TracingHeap.Command

/-- What a run leaves behind. -/
structure Execution where
  code : Nat
  out : List Line
  err : List String

/-- The machine that the program runs on. -/
structure Machine where
  /-- The number of the thread that the program runs in. -/
  thread : Nat
  clocks : Clocks

/-- A machine on which hardly any time goes by. -/
def Machine.quick : Machine := ⟨7, .quick⟩

/-- The place that the report of a fault names. A task meets no other faults. -/
def place? : Fault → Option String
  | .overflow _ => "crates/reclaim_runtime/src/memory/reachability.rs:173:51"
  | .capacity => "crates/reclaim_utils/src/bench.rs:38:27"
  | .durationNegative | .durationRange =>
    "/rustc/b940084d7eb6a299eb4bfeb8e34901bc051e7ac4/library/core/src/time.rs:962:23"
  | _ => none

/-- The report of a fault that ends the program. -/
def report (thread : Nat) (f : Fault) : List String :=
  let place := match place? f with
    | some place => " at " ++ place
    | none => ""
  ["", "thread 'main' (" ++ toString thread ++ ") panicked" ++ place ++ ":", f.message,
    "note: run with `RUST_BACKTRACE=1` environment variable to display a backtrace"]

namespace Execution

def failed (out : List Line) (message : String) : Execution := ⟨1, out, ["Error: " ++ message]⟩

/-- A run that ends for a reason, if there is one, after printing some lines. -/
def ended (m : Machine) (out : List Line) : Option Failure → Execution
  | none => ⟨0, out, []⟩
  | some (.error e) => failed out e.message
  | some (.fault f) => ⟨101, out, report m.thread f⟩

def unloadable (path reason : String) : Execution :=
  ⟨1, [], ["Error: failed to load " ++ path, "", "Caused by:", "    " ++ reason]⟩

def stopped : Stop → Execution
  | .tell topic => ⟨0, topic.text.map Line.plain, []⟩
  | .refuse r => ⟨2, [], ["error: " ++ r.message, "", "For more information, try '--help'."]⟩

end Execution

def verboseFilter : String := "reclaim=debug,reclaim_runtime=debug"

def Invocation.adjust (i : Invocation) (c : Configuration) : Configuration :=
  let s := c.collector
  let s := match i.workers with
    | some n => { s with workerThreads := n }
    | none => s
  { collector := if i.singleThreaded then { s with allowParallel := false } else s
    logFilter := if i.verbose then some verboseFilter else c.logFilter }

def Invocation.perform (i : Invocation) (s : Settings) (processors : Nat) (m : Machine) :
    Execution :=
  match i.task with
  | .stress budget =>
    let s := match budget with
      | some ms => { s with purgeLimitMs := ms }
      | none => s
    match s.validate with
    | .error e => .failed [] e.message
    | .ok () =>
      let (lines, failure) := Stress.run s processors m.clocks i.graph
      .ended m lines failure
  | .bench iterations =>
    match Bench.run s processors i.graph iterations with
    | .error f => .ended m [] (some f)
    | .ok outcome => match outcome.lines with
      | .error f => .ended m [] (some (.fault f))
      | .ok lines => .ended m lines none

def run (arguments : List String) (e : Environment) (processors : Nat) (m : Machine) :
    Execution :=
  match read arguments with
  | .error stop => .stopped stop
  | .ok i =>
    let loaded := match i.config with
      | some path => (Configuration.ofFile path).mapError (Execution.unloadable path)
      | none => .ok .default
    match loaded with
    | .error execution => execution
    | .ok c =>
      let s := (i.adjust (c.override e)).collector
      match s.validate with
      | .error error => .failed [] error.message
      | .ok () => i.perform s processors m

end TracingHeap.Command
