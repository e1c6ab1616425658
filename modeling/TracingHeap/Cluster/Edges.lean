import TracingHeap.Cluster.Basic
import TracingHeap.HandleSet

namespace TracingHeap

/-- What a reference that leaves a cluster leads to. -/
inductive Outside where
  | cluster (root : Handle)
  | standalone (object : Handle)
deriving DecidableEq

namespace Outside

def root? : Outside → Option Handle
  | cluster root => some root
  | standalone _ => none

def object? : Outside → Option Handle
  | cluster _ => none
  | standalone object => some object

end Outside

namespace Table

/-- Where the reference in a slot leads, if it leaves a cluster for a collectable object; `inside`
tells the objects of the cluster. -/
def outside? (t : Table) (inside : Handle → Bool) (slot : Slot) : Option Outside := do
  let h ← slot
  if t.isPermanent h then none
  else
    let o ← t.get? h
    if inside o.handle then none
    else match o.owner with
      | some root => some (.cluster root)
      | none => if o.has .clusterRoot then some (.cluster o.handle) else some (.standalone o.handle)

def outsideOf (t : Table) (s : Schema) (inside : Handle → Bool) (h : Handle) :
    Except Failure (List Outside) :=
  match t.get? h with
  | none => .ok []
  | some o => do
    let visits ← (← s.walk o).complete.mapError .fault
    return visits.filterMap fun v => match v.strength with
      | .strong => (o.slot? v.address).bind (t.outside? inside)
      | .weak => none

end Table

namespace Cluster

def note (c : Cluster) (found : List Outside) : Cluster :=
  { c with
    referenced := appendNew c.referenced (found.filterMap (·.root?))
    mutables := appendNew c.mutables (found.filterMap (·.object?)) }

def noteObject (c : Cluster) (s : Schema) (t : Table) (h : Handle) : Except Failure Cluster := do
  return c.note (← t.outsideOf s c.encloses h)

def noteAll (c : Cluster) (s : Schema) (t : Table) : Except Failure Cluster := do
  let objects := HandleSet.ofList c.objects
  return c.note (← c.objects.mapM (t.outsideOf s objects.contains)).flatten

end Cluster

namespace Clusters

/-- Keeps the references that `source` holds now with the cluster it belongs to. Nothing happens
for a standalone object. References that are gone stay until the cluster is dissolved. -/
def record (cs : Clusters) (s : Schema) (t : Table) (source : Handle) :
    Except Failure Clusters := do
  let some o := t.get? source | throw (.error (.invalidHandle source))
  let root? := if o.has .clusterRoot then some source else o.owner
  match root? with
  | none => return cs
  | some root =>
    let some c := cs.get? root
      | throw (.error (.clusterInvariant ("object " ++ source.text
          ++ " belongs to unregistered cluster " ++ root.text)))
    return cs.replace (← c.noteObject s t source)

end Clusters

end TracingHeap
