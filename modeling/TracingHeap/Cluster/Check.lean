import TracingHeap.Cluster.Basic

namespace TracingHeap

def ownerText : Option Handle → String
  | none => "None"
  | some h => "Some(" ++ h.debugText ++ ")"

namespace Cluster

def memberFlaw (t : Table) (root member : Handle) : Option String :=
  match t.get? member with
  | none => some ("member " ++ member.text ++ " has been freed")
  | some o =>
    if o.owner ≠ some root then
      some ("member " ++ member.text ++ " has owner " ++ ownerText o.owner)
    else if o.isUnreachable then some ("member " ++ member.text ++ " is flagged unreachable")
    else none

def rootFlaw (t : Table) (root : Handle) : Option String :=
  match t.get? root with
  | none => some "root has been freed"
  | some o =>
    if !o.has .clusterRoot then some "root is not flagged as a cluster root"
    else if o.owner.isSome then some "root belongs to another cluster"
    else none

def referencedFlaw (cs : Clusters) (root : Handle) : Option String :=
  if cs.contains root then none
  else some ("referenced cluster " ++ root.text ++ " does not exist")

def mutableFlaw (t : Table) (object : Handle) : Option String :=
  if t.contains object then none
  else some ("mutable object " ++ object.text ++ " has been freed")

/-- The first thing wrong with a cluster. -/
def flaw (c : Cluster) (cs : Clusters) (t : Table) : Option String :=
  (rootFlaw t c.root).or ((c.members.findSome? (memberFlaw t c.root)).or
    ((c.referenced.findSome? (referencedFlaw cs)).or (c.mutables.findSome? (mutableFlaw t))))

end Cluster

namespace Clusters

def verify (cs : Clusters) (t : Table) (root : Handle) : Except HeapError Unit :=
  let broken := fun reason => .error (.clusterInvariant ("cluster " ++ root.text ++ ": " ++ reason))
  match cs.get? root with
  | none => broken "not registered"
  | some c => match c.flaw cs t with
    | some reason => broken reason
    | none => .ok ()

def verifyAll (cs : Clusters) (t : Table) : Except HeapError Unit :=
  (cs.list.map (·.root)).forM (cs.verify t)

end Clusters

end TracingHeap
