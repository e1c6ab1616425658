import TracingHeap.Cluster.Formation
import TracingHeap.Collector.Basic

namespace TracingHeap

namespace Collector

def answer {α : Type} (c : Collector) (a : Except HeapError α) : Outcome α := .ok (a, c)

/-- Takes over what a call made, unless it failed. -/
def settle {α β : Type} (c : Collector) (made : Except Failure α) (take : α → β × Collector) :
    Outcome β :=
  match made with
  | .ok a =>
    let (b, c) := take a
    .ok (.ok b, c)
  | .error (.error e) => c.answer (.error e)
  | .error (.fault f) => .error f

def registerClass (c : Collector) (spec : ClassSpec) : Outcome ClassId :=
  c.settle (c.schema.register spec) fun (id, schema) => (id, { c with schema := schema })

def createObject (c : Collector) (id : ClassId) (name : String) : Outcome Handle :=
  match c.schema.instantiate id with
  | .error (.error e) => c.answer (.error e)
  | .error (.fault f) => .error f
  | .ok cells =>
    let (h?, table) := c.table.allocate id name cells
    let c := { c with table := table }
    match h? with
    | some h => c.answer (.ok h)
    | none => c.answer (.error .tableExhausted)

def closePermanentPool (c : Collector) : Collector :=
  { c with table := c.table.closePermanentPool }

def setFlags (c : Collector) (h : Handle) (m : Flags) : Except HeapError Unit × Collector :=
  match c.object h with
  | .error e => (.error e, c)
  | .ok _ => (.ok (), { c with table := c.table.modify h (·.insertFlags m) })

def clearFlags (c : Collector) (h : Handle) (m : Flags) : Except HeapError Unit × Collector :=
  match c.object h with
  | .error e => (.error e, c)
  | .ok _ => (.ok (), { c with table := c.table.modify h (·.removeFlags m) })

def addRoot (c : Collector) (h : Handle) : Except HeapError Unit × Collector :=
  match c.object h with
  | .error e => (.error e, c)
  | .ok o =>
    if o.has .pendingKill then (.error (.rootedPendingKill h), c)
    else (.ok (), { c with table := c.table.setFlag h .rootSet })

def removeRoot (c : Collector) (h : Handle) : Except HeapError Unit × Collector :=
  c.clearFlags h (.single .rootSet)

/-- Kills an object, unless it is a root: the next collection nulls the strong references to it. -/
def kill (c : Collector) (h : Handle) : Except HeapError Unit × Collector :=
  match c.object h with
  | .error e => (.error e, c)
  | .ok o =>
    if o.has .rootSet then (.error (.rootedPendingKill h), c)
    else (.ok (), { c with table := c.table.setFlag h .pendingKill })

def record (c : Collector) (h : Handle) : Outcome Unit :=
  c.settle (c.clusters.record c.schema c.table h) fun clusters =>
    ((), { c with clusters := clusters })

/-- A reference may lead to nothing, or to an object that is not condemned. -/
def checkTarget (t : Table) (target : Slot) : Except HeapError Unit :=
  match target with
  | none => .ok ()
  | some h => match t.get? h with
    | some o => if o.flags.intersects .condemned then .error (.invalidHandle h) else .ok ()
    | none => .error (.invalidHandle h)

/-- Makes one cell of an object take in a reference, if it is a cell of the `expected` kind. -/
def writeReference (c : Collector) (h : Handle) (offset : Nat) (target : Slot)
    (expected : String) : Outcome Unit :=
  match checkTarget c.table target, c.object h with
  | .error e, _ | _, .error e => c.answer (.error e)
  | .ok _, .ok o =>
    if o.cells[offset]?.any (·.kindName == expected) then
      let c := { c with table := c.table.modify h (·.modifyCell offset (·.hold target)) }
      if target.isSome then c.record h else c.answer (.ok ())
    else c.answer (.error (mismatchError o offset expected))

def setReference (c : Collector) (h : Handle) (offset : Nat) (target : Slot) : Outcome Unit :=
  c.writeReference h offset target "reference"

def pushReference (c : Collector) (h : Handle) (offset : Nat) (target : Slot) : Outcome Unit :=
  c.writeReference h offset target "reference array"

/-- Changes the cells of an object at will. The targets are not checked. -/
def revise (c : Collector) (h : Handle) (f : Array Cell → Array Cell) : Outcome Unit :=
  match c.object h with
  | .error e => c.answer (.error e)
  | .ok _ =>
    { c with table := c.table.modify h fun o => { o with cells := f o.cells } }.record h

/-- Replaces a cell. The answer tells whether there was one at the offset. -/
def putCell (c : Collector) (h : Handle) (offset : Nat) (cell : Cell) : Outcome Bool :=
  let isThere := match c.object h with
    | .ok o => decide (offset < o.cells.size)
    | .error _ => false
  (c.revise h (·.setIfInBounds offset cell)).map fun (done, c) => (done.map fun _ => isThere, c)

def formCluster (c : Collector) (root : Handle) (members : List Handle) : Outcome Unit :=
  match Cluster.form c.schema c.table root members with
  | .error (.error e) => c.answer (.error e)
  | .error (.fault f) => .error f
  | .ok made =>
    .ok (.ok (), { c with table := made.adopt c.table, clusters := c.clusters.insert made })

end Collector

end TracingHeap
