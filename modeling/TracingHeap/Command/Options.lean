import TracingHeap.Number.Read
import TracingHeap.Workload.Graph

namespace TracingHeap.Command

inductive ValueKind where
  /-- A whole number of 64 bits. -/
  | size
  | decimal
  /-- A path; not empty. -/
  | path
deriving DecidableEq

def ValueKind.accepts : ValueKind → String → Bool
  | size, s => (readBelow? sizeLimit s).isSome
  | decimal, s => (readFloat? s).isSome
  | path, s => !s.isEmpty

structure OptionSpec where
  long : String
  short : Option Char
  /-- The kind of its value; a switch has none. -/
  value : Option ValueKind
  help : String
deriving DecidableEq

/-- The options at every level. -/
def sharedOptions : List OptionSpec :=
  [⟨"config", some 'c', some .path, "TOML runtime configuration (requires the toml-config feature)"⟩,
    ⟨"workers", some 'w', some .size, "Trace worker count (0 = one per logical CPU)"⟩,
    ⟨"single-threaded", none, none, "Never mark in parallel"⟩,
    ⟨"verbose", some 'v', none, "Verbose output"⟩]

def graphOptions : List OptionSpec :=
  [⟨"objects", some 'o', some .size, "Objects in the random part of the graph [default: 100000]"⟩,
    ⟨"fan-out", none, some .size, "Strong references per object [default: 2]"⟩,
    ⟨"roots", none, some .size, "Objects added to the root set [default: 16]"⟩,
    ⟨"clusters", none, some .size, "Clusters built next to the random graph [default: 64]"⟩,
    ⟨"cluster-size", none, some .size, "Members per cluster [default: 32]"⟩,
    ⟨"seed", none, some .size, "Seed for the graph generator [default: 24301]"⟩]

def budgetOption : OptionSpec :=
  ⟨"purge-budget-ms", none, some .decimal, "Budget of one incremental purge step in milliseconds"⟩

def iterationsOption : OptionSpec :=
  ⟨"iterations", some 'i', some .size, "Number of timed collections [default: 10]"⟩

inductive Name where
  | stress
  | bench
deriving DecidableEq

namespace Name

def all : List Name := [stress, bench]

def text : Name → String
  | stress => "stress"
  | bench => "bench"

def ofText? (s : String) : Option Name :=
  if s = "stress" then some stress else if s = "bench" then some bench else none

def about : Name → String
  | stress => "Build a graph, collect it and purge incrementally"
  | bench => "Time repeated full collections"

def options : Name → List OptionSpec
  | stress => graphOptions ++ [budgetOption]
  | bench => graphOptions ++ [iterationsOption]

end Name

end TracingHeap.Command
