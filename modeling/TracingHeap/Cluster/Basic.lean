import TracingHeap.Table
import TracingHeap.Schema.Basic
import TracingHeap.Token.Walk

namespace TracingHeap

/-- A group of objects that live and die together. The root stands for every member while marking; the
references that leave the cluster are kept in two lists. -/
structure Cluster where
  root : Handle
  /-- The members, without the root. -/
  members : List Handle
  /-- The roots of the clusters referenced from inside this one. -/
  referenced : List Handle
  /-- The standalone objects referenced from inside this one. -/
  mutables : List Handle
deriving DecidableEq

namespace Cluster

def objects (c : Cluster) : List Handle := c.root :: c.members

def encloses (c : Cluster) (h : Handle) : Bool := c.objects.contains h

end Cluster

/-- The registered clusters, the latest first. -/
structure Clusters where
  list : List Cluster
deriving DecidableEq

namespace Clusters

def empty : Clusters := ⟨[]⟩

def size (cs : Clusters) : Nat := cs.list.length

def isEmpty (cs : Clusters) : Bool := cs.list.isEmpty

def get? (cs : Clusters) (root : Handle) : Option Cluster := cs.list.find? (·.root == root)

def contains (cs : Clusters) (root : Handle) : Bool := (cs.get? root).isSome

/-- Registers a cluster, unless its root has one. -/
def insert (cs : Clusters) (c : Cluster) : Clusters :=
  if cs.contains c.root then cs else ⟨c :: cs.list⟩

def erase (cs : Clusters) (root : Handle) : Clusters := ⟨cs.list.filter (·.root != root)⟩

def replace (cs : Clusters) (c : Cluster) : Clusters :=
  ⟨cs.list.map fun d => if d.root == c.root then c else d⟩

end Clusters

namespace Schema

def walk (s : Schema) (o : Object) : Except Failure Walk := do
  return (← s.stream o.classId).walk o

end Schema

end TracingHeap
