import TracingHeap.Marking.Wave
import TracingHeap.Cluster.Dissolution

namespace TracingHeap

structure MarkPlan where
  keep : Flags
  memberKeepsCluster : Bool
  waves : WavePlan

structure MarkResult where
  table : Table
  clusters : Clusters
  pool : ScratchPool
  /-- Weak slots to be nulled if their target ends up unreachable. -/
  weak : Array Site
  /-- The collectable objects present when marking began. -/
  considered : Nat
  scanned : Nat
  waves : Nat
  /-- The clusters broken up because a member outlived the root. -/
  dissolved : Nat
  parallel : Bool

def isKept (keep flags : Flags) : Bool := flags.intersects keep && !flags.has .pendingKill

/-- Flags one object, or makes it a seed. Cluster members are not flagged: they share the fate of
their root. -/
def seedObject (keep : Flags) (found : Array Handle × Table) (h : Handle) :
    Except Fault (Array Handle × Table) := do
  let (seeds, t) := found
  let some o := t.get? h | return (seeds, t)
  if o.isUnreachable then throw (.alreadyUnreachable h)
  let o := o.clear .reachableInCluster
  let t := t.clearFlag h .reachableInCluster
  if o.has .rootSet then
    if o.has .pendingKill then throw (.fatal (.rootedPendingKill h))
    return (seeds.push h, t)
  if isKept keep o.flags then return (seeds.push h, t)
  if o.owner.isSome then return (seeds, t)
  return (seeds, (t.setFlag h .unreachable).setFlag h .noStrongReference)

/-- Flags every collectable object that is not a seed. The answer is the seeds and the number of
collectable objects. -/
def seed (keep : Flags) (t : Table) : Except Fault (List Handle × Nat × Table) := do
  let all := t.collectable.map (·.handle)
  let (seeds, t) ← all.foldlM (seedObject (keep.union Flags.keep)) (#[], t)
  return (seeds.toList, all.length, t)

/-- Traces a frontier and dissolves the clusters that were outlived, until no dissolved cluster
leaves a survivor. A round that goes on dissolves a cluster, so one more than the number of
clusters bounds the rounds. -/
def markRounds (s : Schema) (plan : MarkPlan) : Nat → List Handle → MarkResult →
    Except Fault MarkResult
  | 0, _, _ => .error .exhausted
  | fuel + 1, frontier, r => do
    let tracer : Tracer := ⟨s, r.clusters, plan.memberKeepsCluster⟩
    let traced ← tracer.trace plan.waves frontier r.table r.pool ⟨r.weak, r.scanned, r.waves⟩
    let pool := traced.pool.acquire
    let (count, survivors, table, clusters) ← r.clusters.dissolveOutlived s traced.table
    let r := { r with
      table := table
      clusters := clusters
      pool := pool
      weak := traced.tally.weak
      scanned := traced.tally.scanned
      waves := traced.tally.waves
      dissolved := r.dissolved + count }
    if survivors.isEmpty then return { r with pool := r.pool.release }
    markRounds s plan fuel survivors r

/-- Finds out which objects are reachable. Every collectable object is flagged except the seeds; the seeds are
traced; clusters found dead although a member was referenced from outside are dissolved, and their
survivors traced, until nothing changes. -/
def mark (s : Schema) (plan : MarkPlan) (t : Table) (cs : Clusters) (pool : ScratchPool) :
    Except Fault MarkResult := do
  let pool := pool.acquire
  let (seeds, considered, t) ← seed plan.keep t
  let r ← markRounds s plan (cs.size + 1) seeds
    ⟨t, cs, pool, #[], considered, 0, 0, 0, plan.waves.workers.isSome⟩
  if !r.pool.isBalanced then throw .scratchLeak
  return r

end TracingHeap
