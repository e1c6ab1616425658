import TracingHeap.Cluster.Edges

namespace TracingHeap

namespace Table

def clusterable (t : Table) (h : Handle) : Except HeapError Unit := do
  let some o := t.get? h | throw (.invalidHandle h)
  if t.isPermanent h then throw (.invalidCluster h "object is in the permanent pool")
  if o.owner.isSome then throw (.invalidCluster h "object already belongs to a cluster")
  if o.has .clusterRoot then throw (.invalidCluster h "object is already a cluster root")
  if o.flags.intersects .doomed then throw (.invalidCluster h "object is pending destruction")

end Table

namespace Cluster

def sorted (c : Cluster) : Cluster :=
  { c with
    referenced := c.referenced.mergeSort Handle.le
    mutables := c.mutables.mergeSort Handle.le }

/-- The cluster of a root and some members, with its references in ascending order. The root and
repeated members do not count as members. -/
def form (s : Schema) (t : Table) (root : Handle) (members : List Handle) :
    Except Failure Cluster := do
  ((root :: members).forM t.clusterable).mapError .error
  let c : Cluster := ⟨root, (HandleSet.ofList [root]).missing members, [], []⟩
  return (← c.noteAll s t).sorted

/-- Marks the objects of a new cluster: the root owns the members and is flagged. -/
def adopt (c : Cluster) (t : Table) : Table :=
  (c.members.foldl (fun t h => t.modify h (·.setOwner (some c.root))) t).setFlag c.root .clusterRoot

end Cluster

end TracingHeap
