import TracingHeap.Collector.Mutator
import TracingHeap.Workload.Random

namespace TracingHeap

/-- A random graph, settled by its seed: nodes with strong links and weak observers, and chains of nodes bundled
into clusters that some of the nodes point at. -/
structure GraphSpec where
  /-- The nodes of the random part. -/
  objects : Nat
  /-- The strong links of each node. -/
  fanOut : Nat
  roots : Nat
  clusters : Nat
  /-- The members of each cluster. -/
  clusterSize : Nat
  seed : UInt64
deriving DecidableEq

namespace GraphSpec

def default : GraphSpec := ⟨100000, 2, 16, 64, 32, 24301⟩

end GraphSpec

def nodeSpec : ClassSpec where
  name := "Node"
  superclass := none
  fields := .ofList
    [("links", .references .strong), ("observer", .reference .weak), ("payload", .value)]
  collector := none
  lifecycle := .silent

namespace Graph

def links : Nat := 0

/-- The offset of the object that a node observes. -/
def observer : Nat := 1

def demand {α : Type} (o : Outcome α) : Except Failure (α × Collector) :=
  match o with
  | .ok (.ok a, c) => .ok (a, c)
  | .ok (.error e, _) => .error (.error e)
  | .error f => .error (.fault f)

def addNodes (id : ClassId) (n : Nat) (c : Collector) :
    Except Failure (Array Handle × Collector) :=
  (List.range n).foldlM (fun (nodes, c) i => do
    let (h, c) ← demand (c.createObject id ("node" ++ toString i))
    return (nodes.push h, c)) (#[], c)

def addLink (nodes : Array Handle) (h : Handle) (state : Random × Collector) :
    Except Failure (Random × Collector) := do
  let (r, c) := state
  let (target, r) := r.pick nodes
  let (_, c) ← demand (c.pushReference h links target)
  return (r, c)

/-- Links a node to others, and lets one node in four observe another one. -/
def linkNode (spec : GraphSpec) (nodes : Array Handle) (state : Random × Collector) (h : Handle) :
    Except Failure (Random × Collector) := do
  let (r, c) ← (List.range spec.fanOut).foldlM (fun state _ => addLink nodes h state) state
  let (roll, r) := r.below 4
  if roll = 0 then
    let (target, r) := r.pick nodes
    let (_, c) ← demand (c.setReference h observer target)
    return (r, c)
  else return (r, c)

structure Chain where
  last : Handle
  members : Array Handle
  collector : Collector

def addMember (id : ClassId) (name : String) (chain : Chain) (i : Nat) : Except Failure Chain := do
  let (h, c) ← demand (chain.collector.createObject id (name ++ "." ++ toString i))
  let (_, c) ← demand (c.pushReference chain.last links (some h))
  return ⟨h, chain.members.push h, c⟩

/-- Makes a cluster: a chain of nodes that starts at the root. Every second one is linked to from
a node of the random part. -/
def addCluster (id : ClassId) (spec : GraphSpec) (nodes : Array Handle)
    (state : Random × Collector) (i : Nat) : Except Failure (Random × Collector) := do
  let (r, c) := state
  let name := "cluster" ++ toString i
  let (root, c) ← demand (c.createObject id name)
  let chain ← (List.range spec.clusterSize).foldlM (addMember id name) ⟨root, #[], c⟩
  let (_, c) ← demand (chain.collector.formCluster root chain.members.toList)
  if nodes.isEmpty then return (r, c)
  else
    let (roll, r) := r.below 2
    if roll = 0 then
      let (holder?, r) := r.pick nodes
      match holder? with
      | some holder =>
        let (_, c) ← demand (c.pushReference holder links (some root))
        return (r, c)
      | none => return (r, c)
    else return (r, c)

def addRoots (roots : List Handle) (c : Collector) : Except Failure Collector :=
  roots.foldlM (fun c h => do return (← demand (.ok (c.addRoot h))).2) c

end Graph

/-- Adds a graph to the heap. The first part of the answer is the number of roots. -/
def Collector.populate (c : Collector) (id : ClassId) (spec : GraphSpec) :
    Except Failure (Nat × Collector) := do
  let (nodes, c) ← Graph.addNodes id spec.objects c
  let (r, c) ← nodes.toList.foldlM (Graph.linkNode spec nodes) (⟨spec.seed⟩, c)
  let (_, c) ← (List.range spec.clusters).foldlM (Graph.addCluster id spec nodes) (r, c)
  let roots := nodes.toList.take spec.roots
  return (roots.length, ← Graph.addRoots roots c)

def Collector.withGraph (settings : Settings) (processors : Nat) (spec : GraphSpec) :
    Except Failure (Nat × ClassId × Collector) := do
  let (id, c) ← Graph.demand ((Collector.start settings processors).registerClass nodeSpec)
  let (roots, c) ← c.populate id spec
  return (roots, id, c)

end TracingHeap
