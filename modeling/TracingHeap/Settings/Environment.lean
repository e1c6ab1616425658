import TracingHeap.Settings.Basic
import TracingHeap.Number.Read

namespace TracingHeap

structure Environment where
  entries : List (String × String)

namespace Environment

def empty : Environment := ⟨[]⟩

def get? (e : Environment) (name : String) : Option String := e.entries.lookup name

def read? {α : Type} (e : Environment) (name : String) (reader : String → Option α) : Option α := do
  reader (← e.get? name)

end Environment

/-- A limit is no negative number. -/
def readLimit? (s : String) : Option Float := do
  let x ← readFloat? s
  if 0.0 ≤ x then some x else none

namespace Settings

/-- Takes over the settings of an environment. A variable that is not set, or whose text cannot be read,
leaves its setting as it was. -/
def override (s : Settings) (e : Environment) : Settings :=
  let size := readBelow? sizeLimit
  { minPerTask :=
      match e.read? "RECLAIM_GC_MIN_OBJECTS_PER_TASK" size with
      | some n => max n 1
      | none => s.minPerTask
    allowParallel := (e.read? "RECLAIM_GC_ALLOW_PARALLEL" readBool?).getD s.allowParallel
    workerThreads := (e.read? "RECLAIM_GC_WORKER_THREADS" size).getD s.workerThreads
    retriesBeforeForcing :=
      (e.read? "RECLAIM_GC_RETRIES_BEFORE_FORCING" (readBelow? 4294967296)).getD
        s.retriesBeforeForcing
    purgeLimitMs := (e.read? "RECLAIM_GC_PURGE_TIME_LIMIT_MS" readLimit?).getD s.purgeLimitMs
    verify := (e.read? "RECLAIM_GC_VERIFY" readBool?).getD s.verify
    memberKeepsCluster :=
      (e.read? "RECLAIM_GC_MEMBER_KEEPS_CLUSTER" readBool?).getD s.memberKeepsCluster }

def ofEnvironment (e : Environment) : Settings := default.override e

end Settings

def Environment.logFilter? (e : Environment) : Option String := e.get? "RECLAIM_LOG"

namespace Configuration

def override (c : Configuration) (e : Environment) : Configuration :=
  ⟨c.collector.override e, e.logFilter?.or c.logFilter⟩

def ofEnvironment (e : Environment) : Configuration :=
  ⟨.ofEnvironment e, e.logFilter?⟩

end Configuration

end TracingHeap
