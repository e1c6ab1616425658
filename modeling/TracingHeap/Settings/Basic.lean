import TracingHeap.Duration

namespace TracingHeap

structure Settings where
  /-- The least number of objects in a batch. -/
  minPerTask : Nat
  allowParallel : Bool
  /-- The number of workers, zero meaning one for each processor. -/
  workerThreads : Nat
  /-- How many attempts may miss before one waits for the lock, zero meaning any number. -/
  retriesBeforeForcing : Nat
  /-- What a step of a purge may take, in milliseconds. -/
  purgeLimitMs : Float
  /-- Whether the clusters are checked before a collection. -/
  verify : Bool
  /-- Whether a reference to a member keeps the whole cluster. -/
  memberKeepsCluster : Bool

namespace Settings

def default : Settings := ⟨128, true, 0, 0, 2.0, true, false⟩

def serial : Settings := { default with allowParallel := false, workerThreads := 1 }

/-- The number of workers, or none if it is the number of processors. -/
def workerCount? (s : Settings) : Option Nat :=
  if !s.allowParallel then some 1
  else if s.workerThreads = 0 then none else some s.workerThreads

/-- What a step of a purge may take. A limit that is negative or undefined counts as zero. -/
def purgeLimit (s : Settings) : Except Fault Duration :=
  let ms := if 0.0 < s.purgeLimitMs then s.purgeLimitMs else 0.0
  Duration.ofFloat (ms / 1000.0)

def isDefault (s : Settings) : Bool :=
  s.minPerTask == default.minPerTask && s.allowParallel == default.allowParallel
    && s.workerThreads == default.workerThreads
    && s.retriesBeforeForcing == default.retriesBeforeForcing
    && s.purgeLimitMs == default.purgeLimitMs && s.verify == default.verify
    && s.memberKeepsCluster == default.memberKeepsCluster

def validate (s : Settings) : Except HeapError Unit :=
  if s.minPerTask = 0 then .error (.badSetting "gc.min_objects_per_task" "0")
  else if !s.purgeLimitMs.isFinite || s.purgeLimitMs < 0.0 then
    .error (.badSetting "gc.incremental_purge_time_limit_ms" (floatText s.purgeLimitMs))
  else .ok ()

end Settings

/-- The settings of a collector and of the log beside it. -/
structure Configuration where
  collector : Settings
  logFilter : Option String

namespace Configuration

def default : Configuration := ⟨.default, none⟩

def isDefault (c : Configuration) : Bool := c.collector.isDefault && c.logFilter.isNone

def fileRefusal : String := "TOML support not enabled. Enable the 'toml-config' feature."

/-- Configuration files are not supported. -/
def ofFile (_path : String) : Except String Configuration := .error fileRefusal

def toFile (_c : Configuration) (_path : String) : Except String Unit := .error fileRefusal

end Configuration

end TracingHeap
