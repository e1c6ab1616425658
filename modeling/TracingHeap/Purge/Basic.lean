import TracingHeap.Table
import TracingHeap.Schema.Basic
import TracingHeap.Journal

namespace TracingHeap

/-- When a call has to stop: the answer to its `n`th look at the clock. -/
structure Deadline where
  passed : Nat → Bool

namespace Deadline

def always : Deadline := ⟨fun _ => true⟩

def never : Deadline := ⟨fun _ => false⟩

end Deadline

def mustStop (deadline : Option Deadline) (n : Nat) : Bool :=
  match deadline with
  | some d => d.passed n
  | none => false

structure Progress where
  /-- The objects freed by the call. -/
  purged : Nat
  /-- No further call is needed. -/
  completed : Bool
deriving DecidableEq

/-- The destruction of the objects that marking left unreachable. It may be spread over many calls, each cut
off when a deadline has passed. -/
structure Purge where
  required : Bool
  /-- The next slot of the walk at hand. -/
  cursor : Nat
  /-- The next walk starts at the first collectable slot. -/
  rewind : Bool
  /-- The last stage of destruction has been routed to every unreachable object. -/
  routed : Bool
  /-- Objects that were not ready when the walk met them. -/
  parked : Array Handle
  /-- The objects freed since the purge was requested. -/
  purged : Nat
  /-- The objects that the mark before the purge considered. -/
  considered : Nat

namespace Purge

def idle : Purge := ⟨false, 0, false, false, #[], 0, 0⟩

/-- Starts a purge after a mark. Objects parked before stay parked. -/
def request (p : Purge) (considered : Nat) : Purge :=
  { p with
    required := true
    rewind := true
    routed := false
    purged := 0
    considered := considered }

/-- A purge that is done, with nothing to do but what is parked. -/
def reset (p : Purge) : Purge := { idle with parked := p.parked }

def placeCursor (p : Purge) (t : Table) : Purge :=
  if p.rewind then { p with cursor := t.boundary, rewind := false } else p

end Purge

end TracingHeap
