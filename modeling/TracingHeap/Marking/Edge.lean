import TracingHeap.Cluster.Basic
import TracingHeap.ScratchPool

namespace TracingHeap

/-- What one task of a wave has found. -/
structure TaskOutput where
  /-- The objects claimed; they form part of the next wave. -/
  reached : Array Handle
  /-- Weak slots to look at again when marking is done. -/
  weak : Array Site
  /-- The number of objects looked at. -/
  scanned : Nat

namespace TaskOutput

def empty : TaskOutput := ⟨#[], #[], 0⟩

end TaskOutput

/-- The state that the edges of a task change. -/
structure Marking where
  table : Table
  pool : ScratchPool
  output : TaskOutput

namespace Marking

def setFlag (m : Marking) (h : Handle) (f : Flag) : Marking :=
  { m with table := m.table.setFlag h f }

def clearFlag (m : Marking) (h : Handle) (f : Flag) : Marking :=
  { m with table := m.table.clearFlag h f }

def reach (m : Marking) (h : Handle) : Marking :=
  { m with output := { m.output with reached := m.output.reached.push h } }

def revisit (m : Marking) (s : Site) : Marking :=
  { m with output := { m.output with weak := m.output.weak.push s } }

def countScanned (m : Marking) : Marking :=
  { m with output := { m.output with scanned := m.output.scanned + 1 } }

def claim (m : Marking) (h : Handle) : Marking :=
  (m.clearFlag h .unreachable).clearFlag h .noStrongReference

end Marking

/-- What the trace reads and never changes. -/
structure Tracer where
  schema : Schema
  clusters : Clusters
  /-- Whether a reference to a member keeps the whole cluster. -/
  memberKeepsCluster : Bool

inductive SlotFate where
  | keep
  | null
  /-- To be looked at again when marking is done. -/
  | revisit
deriving DecidableEq

namespace Tracer

def corrupt (t : Tracer) (target : Nat) (holder : Option Object) (token : Option Nat) : Fault :=
  let name := match holder with
    | some o => o.name
    | none => "NULL"
  let blame (origin : String) : Fault := .fatal (.corruptReference target name origin)
  match holder, token with
  | some o, some i => match t.schema.stream o.classId with
    | .ok ts => blame (ts.describe i)
    | .error (.error _) => blame ("token: " ++ toString i)
    | .error (.fault f) => f
  | _, _ => blame "no token"

/-- Flags a cluster member as referenced from outside. Where members keep their clusters, the root
is claimed too, and `expand` marks its cluster. -/
def reachMember (t : Tracer) (expand : Handle → Marking → Except Fault Marking) (h : Handle)
    (m : Marking) : Except Fault Marking :=
  match m.table.get? h with
  | none => .ok m
  | some o =>
    if o.has .reachableInCluster then .ok m
    else
      let m := m.setFlag h .reachableInCluster
      if t.memberKeepsCluster then
        match o.owner with
        | none => .ok m
        | some owner =>
          match m.table.get? owner with
          | none => .error (t.corrupt owner.index (some o) none)
          | some root => if root.isUnreachable then expand owner (m.claim owner) else .ok m
      else .ok m

/-- Marks a standalone object kept by a cluster. It may have become a root or a member since: a
root joins the clusters to be marked, a member is flagged. -/
def reachMutable (t : Tracer) (expand : Handle → Marking → Except Fault Marking)
    (cluster : Handle) (found : List Handle × Marking) (h : Handle) :
    Except Fault (List Handle × Marking) :=
  let (pending, m) := found
  if m.table.isPermanent h then .ok (pending, m)
  else match m.table.get? h with
    | none => .error (t.corrupt h.index (m.table.get? cluster) none)
    | some o =>
      if o.isUnreachable then
        if o.has .clusterRoot then .ok (h :: pending, m.claim h)
        else .ok (pending, (m.claim h).reach h)
      else if o.owner.isSome && !o.has .reachableInCluster then do
        return (pending, ← t.reachMember expand h m)
      else .ok (pending, m)

def reachCluster (t : Tracer) (cluster : Handle) (found : List Handle × Marking) (h : Handle) :
    Except Fault (List Handle × Marking) :=
  let (pending, m) := found
  match m.table.get? h with
  | none => .error (t.corrupt h.index (m.table.get? cluster) none)
  | some root => .ok (if root.isUnreachable then (h :: pending, m.claim h) else (pending, m))

/-- Marks what the pending clusters keep alive, the latest first. Each cluster after the first was
claimed, so one more than the number of slots bounds the clusters to be met. -/
def expandPending (t : Tracer) : Nat → List Handle → Marking → Except Fault Marking
  | _, [], m => .ok m
  | 0, _ :: _, _ => .error .exhausted
  | fuel + 1, current :: pending, m => do
    let some c := t.clusters.get? current
      | throw (.fatal (.clusterInvariant
          ("object " ++ current.text ++ " is flagged as a cluster root but has no cluster")))
    let expand := fun owner (m : Marking) => do
      let m ← t.expandPending fuel [owner] { m with pool := m.pool.acquire }
      return { m with pool := m.pool.release }
    let found ← c.mutables.foldlM (t.reachMutable expand current) (pending, m)
    let (pending, m) ← c.referenced.foldlM (t.reachCluster current) found
    t.expandPending fuel pending m

def expand (t : Tracer) (root : Handle) (m : Marking) : Except Fault Marking := do
  let m ← t.expandPending (m.table.capacity + 1) [root] { m with pool := m.pool.acquire }
  return { m with pool := m.pool.release }

/-- Follows a strong reference to an object that is not killed. An object whose flag `unreachable` goes is
claimed: a standalone object joins the next wave, and a root has its whole cluster marked at once. -/
def followStrong (t : Tracer) (target : Object) (m : Marking) : Except Fault Marking := do
  let h := target.handle
  let m ← if target.isUnreachable then
      if target.owner.isSome then throw (.memberUnreachable h)
      else
        let m := m.clearFlag h .unreachable
        if target.has .clusterRoot then t.expand h m else pure (m.reach h)
    else if target.owner.isSome && !target.has .reachableInCluster then
      t.reachMember t.expand h m
    else pure m
  return if target.has .noStrongReference then m.clearFlag h .noStrongReference else m

/-- Follows the reference in a slot and decides what becomes of the slot. -/
def follow (t : Tracer) (holder : Option Object) (token : Option Nat) (slot : Slot)
    (s : Strength) (m : Marking) : Except Fault (SlotFate × Marking) :=
  match slot with
  | none => .ok (.keep, m)
  | some h =>
    if m.table.isPermanent h then .ok (.keep, m)
    else match m.table.get? h with
      | none => .error (t.corrupt h.index holder token)
      | some target =>
        if target.has .pendingKill then .ok (.null, m)
        else match s with
          | .weak =>
            .ok (if target.isUnreachable || target.owner.isSome then .revisit else .keep, m)
          | .strong => do return (.keep, ← t.followStrong target m)

def visit (t : Tracer) (o : Object) (m : Marking) (v : Visit) : Except Fault Marking := do
  let site : Site := ⟨o.handle, v.address⟩
  let some slot := m.table.slotAt? site | return m
  let (fate, m) ← t.follow (some o) (some v.token) slot v.strength m
  match fate with
  | .keep => return m
  | .null => return { m with table := m.table.clearSite site }
  | .revisit => return m.revisit site

/-- Traces one object of a wave. Its collectors see the object as it was before, not as the slots that were
followed first have left it. Both ways come to the same only if the collectors are steady, that is, report
a slot alike whenever it holds a reference. -/
def process (t : Tracer) (m : Marking) (h : Handle) : Except Fault Marking :=
  match m.table.get? h with
  | none => .error (.fatal (.corruptReference h.index "frontier" "queued object"))
  | some o =>
    let m := m.countScanned
    if o.has .clusterRoot then t.expand h m
    else if o.owner.isSome then t.reachMember t.expand h m
    else do
      let walk ← orFault (t.schema.walk o)
      walk.foldM (t.visit o) m

end Tracer

end TracingHeap
