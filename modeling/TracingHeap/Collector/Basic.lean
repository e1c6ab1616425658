import TracingHeap.Collector.Statistics
import TracingHeap.CollectionLock
import TracingHeap.Marking.Analysis
import TracingHeap.Purge.Run
import TracingHeap.Settings.Basic
import TracingHeap.WeakSlots

namespace TracingHeap

/-- The table with the classes and clusters over it, the pending purge, and what is kept from one collection
to the next. -/
structure Collector where
  settings : Settings
  /-- The number of workers; marking runs in parallel only with more than one. -/
  workers : Nat
  schema : Schema
  table : Table
  clusters : Clusters
  purge : Purge
  journal : Journal
  pool : ScratchPool
  lock : CollectionLock
  /-- How many attempts to collect have missed the lock since the last collection. -/
  misses : Nat
  last : Option Statistics

/-- What a call comes to: a fault, or an answer and the collector after the call. -/
abbrev Outcome (α : Type) := Except Fault (Except HeapError α × Collector)

namespace Collector

def start (settings : Settings) (processors : Nat) : Collector where
  settings := settings
  workers := settings.workerCount?.getD (max processors 1)
  schema := .empty
  table := .empty
  clusters := .empty
  purge := .idle
  journal := .empty
  pool := .empty
  lock := .free
  misses := 0
  last := none

def object (c : Collector) (h : Handle) : Except HeapError Object :=
  match c.table.get? h with
  | some o => .ok o
  | none => .error (.invalidHandle h)

def objectCount (c : Collector) : Nat := c.table.live

def clusterCount (c : Collector) : Nat := c.clusters.size

def flags (c : Collector) (h : Handle) : Except HeapError Flags := do
  return (← c.object h).flags

def owner (c : Collector) (h : Handle) : Except HeapError (Option Handle) := do
  return (← c.object h).owner

def mismatchError (o : Object) (offset : Nat) (expected : String) : HeapError :=
  .fieldMismatch o.name offset expected

def reference (c : Collector) (h : Handle) (offset : Nat) : Except HeapError Slot := do
  let o ← c.object h
  match o.cells[offset]? with
  | some (.ref slot) => return slot
  | _ => throw (mismatchError o offset "reference")

def references (c : Collector) (h : Handle) : Except Failure (List (Visit × Slot)) := do
  let o ← (c.object h).mapError .error
  let visits ← (← c.schema.walk o).complete.mapError .fault
  return visits.filterMap fun v => (o.slot? v.address).map (v, ·)

/-- Whether a purge has begun and not come to its end. -/
def isPurgePending (c : Collector) : Bool := c.purge.required

end Collector

end TracingHeap
