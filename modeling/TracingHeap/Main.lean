import TracingHeap.Command.Run

open TracingHeap

def variableNames : List String :=
  ["RECLAIM_GC_MIN_OBJECTS_PER_TASK", "RECLAIM_GC_ALLOW_PARALLEL", "RECLAIM_GC_WORKER_THREADS",
    "RECLAIM_GC_RETRIES_BEFORE_FORCING", "RECLAIM_GC_PURGE_TIME_LIMIT_MS", "RECLAIM_GC_VERIFY",
    "RECLAIM_GC_MEMBER_KEEPS_CLUSTER", "RECLAIM_LOG"]

def readEnvironment : IO Environment := do
  let found ← variableNames.filterMapM fun name => do
    return (← IO.getEnv name).map (name, ·)
  return ⟨found⟩

/-- The number of processors, one if the system does not tell. -/
def countProcessors : IO Nat := do
  try
    let lines ← IO.FS.lines "/proc/cpuinfo"
    return max 1 (lines.filter (·.startsWith "processor")).size
  catch _ => return 1

/-- The number of the main thread, one if the system does not tell. -/
def readThread : IO Nat := do
  try
    let line ← IO.FS.readFile "/proc/self/stat"
    return (String.ofList (line.toList.takeWhile Char.isDigit)).toNat?.getD 1
  catch _ => return 1

def main (arguments : List String) : IO UInt32 := do
  let e ← readEnvironment
  let processors ← countProcessors
  let thread ← readThread
  let execution := Command.run arguments e processors ⟨thread, .quick⟩
  for l in execution.out do
    IO.println l.text
  for s in execution.err do
    IO.eprintln s
  return UInt32.ofNat execution.code
