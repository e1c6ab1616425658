import TracingHeap.Cluster.Edges

namespace TracingHeap

/-- Takes a handle out of a list; the last entry moves to its place. -/
def swapErase (list : List Handle) (h : Handle) : List Handle :=
  match list.idxOf? h, list.getLast? with
  | some i, some last => (list.set i last).dropLast
  | _, _ => list

namespace Table

def freeMember (t : Table) (h : Handle) : Table :=
  t.modify h fun o =>
    let o := (o.setOwner none).clear .noStrongReference
    if o.has .reachableInCluster then o else o.set .unreachable

end Table

namespace Clusters

def referencing (cs : Clusters) (root : Handle) : List Handle :=
  (cs.list.filter (·.referenced.contains root)).map (·.root)

/-- A cluster forgets the cluster of `gone` and looks at every reference of its objects again. -/
def refresh (cs : Clusters) (s : Schema) (t : Table) (gone root : Handle) :
    Except Fault Clusters :=
  match cs.get? root with
  | none => .ok cs
  | some c => do
    let c := { c with referenced := swapErase c.referenced gone }
    return cs.replace (← orFault (c.noteAll s t))

/-- Breaks up the cluster of `root`, if there is one, and gives what it was. The clusters that referenced it
look at their references again, so that its former objects become objects of their own in what they
keep. -/
def dissolve (cs : Clusters) (s : Schema) (t : Table) (root : Handle) :
    Except Fault (Option Cluster × Table × Clusters) := do
  let some c := cs.get? root | return (none, t, cs)
  let t := t.modify root fun o => (o.clear .clusterRoot).clear .noStrongReference
  let t := c.members.foldl Table.freeMember t
  let others := cs.erase root
  let others ← (others.referencing root).foldlM (fun cs r => cs.refresh s t root r) others
  return (some c, t, others)

/-- Whether a member was referenced from outside while the root was not reached. -/
def outlived (t : Table) (c : Cluster) : Bool :=
  t.isUnreachable c.root && c.members.any fun h => t.has h .reachableInCluster

/-- Dissolves the cluster of `root` and appends the surviving members to a list. -/
def dissolveInto (s : Schema) (found : List Handle × Table × Clusters) (root : Handle) :
    Except Fault (List Handle × Table × Clusters) := do
  let (survivors, t, cs) := found
  let (c?, t, cs) ← cs.dissolve s t root
  match c? with
  | none => return (survivors, t, cs)
  | some c =>
    let alive := c.members.filter fun h => t.contains h && !t.isUnreachable h
    return (survivors ++ alive, t, cs)

/-- Dissolves every unreachable cluster with a member referenced from outside. The answer is the
number of clusters and the members to be traced. -/
def dissolveOutlived (cs : Clusters) (s : Schema) (t : Table) :
    Except Fault (Nat × List Handle × Table × Clusters) := do
  let roots := (cs.list.filter (outlived t)).map (·.root)
  let found ← roots.foldlM (dissolveInto s) ([], t, cs)
  return (roots.length, found)

/-- Dissolves every cluster whose root is unreachable, and counts them. -/
def dissolveUnreachable (cs : Clusters) (s : Schema) (t : Table) :
    Except Fault (Nat × Table × Clusters) := do
  let roots := (cs.list.filter fun c => t.isUnreachable c.root).map (·.root)
  let (t, cs) ← roots.foldlM (fun (t, cs) root => do return (← cs.dissolve s t root).2) (t, cs)
  return (roots.length, t, cs)

end Clusters

end TracingHeap
