import TracingHeap.Settings.Basic
import TracingHeap.Document.Basic

namespace TracingHeap

/-- How a document gives a group of settings: as a record, where absent settings keep their defaults and
unknown keys do not matter, or as a list in order, which may end early but not be longer. -/
structure Group where
  /-- The keys in the order of a list. -/
  keys : List String
  document : Document

namespace Group

def isWellFormed (g : Group) : Bool :=
  match g.document with
  | .record _ => true
  | .list items => items.length ≤ g.keys.length
  | _ => false

def field? (g : Group) (key : String) : Option Document :=
  match g.document with
  | .list items => (g.keys.zip items).lookup key
  | d => d.field? key

/-- Reads a setting; one that is absent has its default. -/
def setting {α : Type} (g : Group) (key : String) (reader : Document → Option α) (absent : α) :
    Option α :=
  match g.field? key with
  | none => some absent
  | some d => reader d

end Group

namespace Settings

def keys : List String :=
  ["min_objects_per_task", "allow_parallel_gc", "worker_threads", "retries_before_forcing_gc",
    "incremental_purge_time_limit_ms", "verify_assumptions", "member_reference_keeps_cluster"]

def ofDocument? (d : Document) : Option Settings := do
  let g : Group := ⟨keys, d⟩
  if !g.isWellFormed then none else
    let size := Document.below? sizeLimit
    return {
      minPerTask := ← g.setting "min_objects_per_task" size default.minPerTask
      allowParallel := ← g.setting "allow_parallel_gc" Document.boolean? default.allowParallel
      workerThreads := ← g.setting "worker_threads" size default.workerThreads
      retriesBeforeForcing := ← g.setting "retries_before_forcing_gc"
        (Document.below? 4294967296) default.retriesBeforeForcing
      purgeLimitMs := ← g.setting "incremental_purge_time_limit_ms"
        Document.decimal? default.purgeLimitMs
      verify := ← g.setting "verify_assumptions" Document.boolean? default.verify
      memberKeepsCluster := ← g.setting "member_reference_keeps_cluster"
        Document.boolean? default.memberKeepsCluster }

end Settings

namespace Configuration

def filterOf? (d : Document) : Option (Option String) :=
  let g : Group := ⟨["filter"], d⟩
  if g.isWellFormed then g.setting "filter" (Document.nullable? Document.text?) none else none

def ofDocument? (d : Document) : Option Configuration := do
  let g : Group := ⟨["gc", "logging"], d⟩
  if !g.isWellFormed then none else
    return {
      collector := ← g.setting "gc" Settings.ofDocument? .default
      logFilter := ← g.setting "logging" filterOf? none }

end Configuration

end TracingHeap
