import TracingHeap.Cluster.Basic

namespace TracingHeap

namespace Table

def isDeadTarget (t : Table) (slot : Slot) : Bool :=
  match slot with
  | some h => t.isUnreachable h
  | none => false

def clearDead (found : Table × Nat) (s : Site) : Table × Nat :=
  let (t, n) := found
  match t.slotAt? s with
  | some slot => if t.isDeadTarget slot then (t.clearSite s, n + 1) else (t, n)
  | none => (t, n)

def clearDeadWeak (s : Schema) (found : Table × Nat) (h : Handle) : Except Fault (Table × Nat) :=
  match found.1.get? h with
  | none => .ok found
  | some o => do
    let walk ← orFault (s.walk o)
    walk.foldM (fun found v => .ok (match v.strength with
      | .weak => clearDead found ⟨h, v.address⟩
      | .strong => found)) found

/-- Nulls the dead weak references of some objects, and counts them. -/
def clearDeadWeakAll (t : Table) (s : Schema) (objects : List Handle) :
    Except Fault (Table × Nat) :=
  objects.foldlM (clearDeadWeak s) (t, 0)

end Table

namespace Clusters

/-- Nulls the dead weak references of every object in a cluster, and counts them. -/
def clearDeadWeak (cs : Clusters) (s : Schema) (t : Table) : Except Fault (Table × Nat) :=
  t.clearDeadWeakAll s (cs.list.flatMap (·.objects))

end Clusters

end TracingHeap
