import TracingHeap.Collector.Mutator
import TracingHeap.Collector.TimeLimit

namespace TracingHeap

/-- A call that can change a collector. -/
inductive Operation where
  | registerClass (spec : ClassSpec)
  | createObject (id : ClassId) (name : String)
  | closePermanentPool
  | setFlags (h : Handle) (m : Flags)
  | clearFlags (h : Handle) (m : Flags)
  | addRoot (h : Handle)
  | removeRoot (h : Handle)
  | kill (h : Handle)
  | setReference (h : Handle) (offset : Nat) (target : Slot)
  | pushReference (h : Handle) (offset : Nat) (target : Slot)
  | putCell (h : Handle) (offset : Nat) (cell : Cell)
  | revise (h : Handle) (f : Array Cell → Array Cell)
  | formCluster (root : Handle) (members : List Handle)
  /-- Keeps collections off. -/
  | hold
  /-- One holder lets go. -/
  | letGo
  | collect (keep : Flags) (full : Bool)
  | tryCollect (keep : Flags) (full : Bool)
  /-- Carries the pending purge on. -/
  | purge (deadline : Option Deadline)
  | shutdown
  /-- Opens or closes the gate that some readiness hooks look at. -/
  | setGate (isOpen : Bool)
  /-- Empties the journal. -/
  | drain

inductive Reply where
  | done
  | error (e : HeapError)
  | registered (id : ClassId)
  | created (h : Handle)
  | wasThere (b : Bool)
  | holders (n : Nat)
  /-- The caller would have to wait for the lock; nothing has happened. -/
  | wouldBlock
  | collected (s : Statistics)
  /-- The attempt missed the lock. -/
  | missed
  | purged (p : Progress)
  | drained (events : List Event)

namespace Reply

def ofAnswer {α : Type} (reply : α → Reply) : Except HeapError α → Reply
  | .ok a => reply a
  | .error e => .error e

end Reply

namespace Collector

def replied (answered : Except HeapError Unit × Collector) : Except Fault (Reply × Collector) :=
  .ok (.ofAnswer (fun _ => .done) answered.1, answered.2)

def reply {α : Type} (f : α → Reply) (o : Outcome α) : Except Fault (Reply × Collector) :=
  o.map fun (a, c) => (.ofAnswer f a, c)

/-- Keeps collections off. The lock is never taken between two calls, so nobody waits. -/
def hold (c : Collector) : Collector :=
  match c.lock.hold? with
  | some lock => { c with lock := lock }
  | none => c

def letGo (c : Collector) : Collector := { c with lock := c.lock.letGo }

/-- Whether a call that needs the lock for itself would have to wait. -/
def isHeld (c : Collector) : Bool := c.lock.take?.isNone

def perform (c : Collector) : Operation → Except Fault (Reply × Collector)
  | .registerClass spec => reply .registered (c.registerClass spec)
  | .createObject id name => reply .created (c.createObject id name)
  | .closePermanentPool => .ok (.done, c.closePermanentPool)
  | .setFlags h m => replied (c.setFlags h m)
  | .clearFlags h m => replied (c.clearFlags h m)
  | .addRoot h => replied (c.addRoot h)
  | .removeRoot h => replied (c.removeRoot h)
  | .kill h => replied (c.kill h)
  | .setReference h offset target => reply (fun _ => .done) (c.setReference h offset target)
  | .pushReference h offset target => reply (fun _ => .done) (c.pushReference h offset target)
  | .putCell h offset cell => reply .wasThere (c.putCell h offset cell)
  | .revise h f => reply (fun _ => .done) (c.revise h f)
  | .formCluster root members => reply (fun _ => .done) (c.formCluster root members)
  | .hold => .ok (.holders c.hold.lock.holders, c.hold)
  | .letGo => .ok (.holders c.letGo.lock.holders, c.letGo)
  | .collect keep full =>
    if c.isHeld then .ok (.wouldBlock, c)
    else do
      let (stats, c) ← c.collect keep full
      return (.collected stats, c)
  | .tryCollect keep full => do
    let (stats?, c) ← c.tryCollect keep full
    return (match stats? with
      | some stats => .collected stats
      | none => .missed, c)
  | .purge deadline => do
    let (progress, c) ← c.runPurge deadline
    return (.purged progress, c)
  | .shutdown =>
    if c.isHeld then .ok (.wouldBlock, c)
    else do return (.done, ← c.shutdown)
  | .setGate isOpen => .ok (.done, { c with journal := c.journal.setGate isOpen })
  | .drain =>
    let (events, journal) := c.journal.drain
    .ok (.drained events, { c with journal := journal })

/-- Carries out a history of calls. -/
def performAll (c : Collector) (ops : List Operation) : Except Fault Collector :=
  ops.foldlM (fun c op => (c.perform op).map (·.2)) c

end Collector

end TracingHeap
