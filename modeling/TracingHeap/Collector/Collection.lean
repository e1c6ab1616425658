import TracingHeap.Cluster.Check
import TracingHeap.Collector.Basic

namespace TracingHeap

namespace Collector

/-- Carries the pending purge on up to a deadline, or to its end. The collector is taken apart, so
that the purge alone holds the table and can change it in place. -/
def runPurge (c : Collector) (deadline : Option Deadline) : Except Fault (Progress × Collector) := do
  let ⟨settings, workers, schema, table, clusters, purge, journal, pool, lock, misses, last⟩ := c
  let (progress, p) ← PurgeState.run schema deadline ⟨purge, table, journal⟩
  return (progress,
    ⟨settings, workers, schema, p.table, clusters, p.purge, p.journal, pool, lock, misses, last⟩)

/-- Finishes the purge that an earlier collection left. The answer is the number of objects
freed. -/
def finishPurge (c : Collector) : Except Fault (Nat × Collector) :=
  if c.isPurgePending then do
    let (progress, c) ← c.runPurge none
    return (progress.purged, c)
  else .ok (0, c)

def markPlan (c : Collector) (keep : Flags) : MarkPlan where
  keep := keep
  memberKeepsCluster := c.settings.memberKeepsCluster
  waves := {
    workers := if c.settings.allowParallel && 1 < c.workers then some c.workers else none
    least := max c.settings.minPerTask 1 }

/-- Nulls the weak references to unreachable objects: those met by the trace, those of clustered
objects and those of permanent ones. The last part of the answer is their number. -/
def clearWeak (s : Schema) (cs : Clusters) (met : Array Site) (t : Table) :
    Except Fault (Table × Nat) := do
  let (t, traced) := met.foldl Table.clearDead (t, 0)
  let (t, clustered) ← cs.clearDeadWeak s t
  let (t, permanent) ← t.clearDeadWeakAll s (t.permanent.map (·.handle))
  return (t, traced + clustered + permanent)

def verifyClusters (c : Collector) : Except Fault Unit :=
  if c.settings.verify then (c.clusters.verifyAll c.table).mapError .fatal else .ok ()

/-- Finds the dead objects, frees the clusters of dead roots and nulls the weak references to
the dead. The purge that is left is requested. -/
def condemn (c : Collector) (keep : Flags) : Except Fault (Statistics × Collector) := do
  c.verifyClusters
  let r ← mark c.schema (c.markPlan keep) c.table c.clusters c.pool
  let (unhashed, table, clusters) ← r.clusters.dissolveUnreachable c.schema r.table
  let (table, cleared) ← clearWeak c.schema clusters r.weak table
  let stats : Statistics := {
    considered := r.considered
    scanned := r.scanned
    unreachable := table.countWith (.single .unreachable)
    dissolved := r.dissolved + unhashed
    weakCleared := cleared
    purged := 0
    waves := r.waves
    parallel := r.parallel
    phases := (if c.settings.verify then [.verify] else [])
      ++ [.mark, .unhash, .clearWeakReferences] }
  return (stats, { c with
    table := table
    clusters := clusters
    pool := r.pool
    purge := c.purge.request r.considered })

/-- Collects garbage. What an earlier collection left to be purged is destroyed first. Objects with one of the
flags `keep` count as roots. With `full` the dead objects are purged at once. -/
def collect (c : Collector) (keep : Flags) (full : Bool) :
    Except Fault (Statistics × Collector) := do
  let before := if c.isPurgePending then [Phase.finishPreviousPurge] else []
  let (finished, c) ← { c with misses := 0 }.finishPurge
  let (stats, c) ← c.condemn keep
  let (freed, c) ← if full then c.finishPurge else pure (0, c)
  let after := if full then [Phase.purge] else []
  let stats := { stats with
    purged := finished + freed
    phases := before ++ stats.phases ++ after }
  return (stats, { c with last := some stats })

/-- Collects if the lock is free. Otherwise the attempt has missed; after as many misses as the
settings allow, the next attempt waits until every holder has let go, and collects. -/
def tryCollect (c : Collector) (keep : Flags) (full : Bool) :
    Except Fault (Option Statistics × Collector) :=
  match c.lock.take? with
  | some _ => do
    let (stats, c) ← c.collect keep full
    return (some stats, c)
  | none =>
    let misses := c.misses + 1
    let retries := c.settings.retriesBeforeForcing
    if 0 < retries ∧ retries < misses then do
      let (stats, c) ← { c with misses, lock := .free }.collect keep full
      return (some stats, c)
    else .ok (none, { c with misses })

def shutdown (c : Collector) : Except Fault Collector := do
  let (_, c) ← c.finishPurge
  return { c with pool := c.pool.cleanup.2 }

end Collector

end TracingHeap
