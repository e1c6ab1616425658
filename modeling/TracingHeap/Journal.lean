import TracingHeap.Schema.Lifecycle

namespace TracingHeap

inductive Event where
  | began (word name : String) (object : Handle)
  | polled (ready : Bool) (name : String) (object : Handle)
  | finished (word name : String) (object : Handle)
deriving DecidableEq

namespace Event

def text : Event → String
  | began word name h | finished word name h => word ++ ":" ++ name ++ h.text
  | polled ready name h => (if ready then "ready:" else "wait:") ++ name ++ h.text

end Event

/-- Which hooks ran on which objects, and for how many polls an object has been waited for. -/
structure Journal where
  /-- The latest event first. -/
  events : List Event
  gateOpen : Bool
  /-- How often each waiting object has been polled. -/
  polls : List (Handle × Nat)

namespace Journal

def empty : Journal := ⟨[], false, []⟩

def enter (j : Journal) (e : Event) : Journal := { j with events := e :: j.events }

def pollCount (j : Journal) (h : Handle) : Nat := (j.polls.lookup h).getD 0

def otherPolls (j : Journal) (h : Handle) : List (Handle × Nat) :=
  j.polls.filter fun p => p.1 != h

/-- For how many polls an object is waited for. -/
def wanted (j : Journal) (r : Readiness) (o : Object) : Option Nat := r j.gateOpen o

/-- Asks an object whether it is ready. Once it is, its polls are forgotten. -/
def poll (j : Journal) (r : Readiness) (o : Object) : Bool × Journal :=
  let count := j.pollCount o.handle + 1
  let ready := match j.wanted r o with
    | some n => decide (n ≤ count)
    | none => false
  let rest := j.otherPolls o.handle
  let polls := if ready then rest else (o.handle, count) :: rest
  (ready, { j with events := .polled ready o.name o.handle :: j.events, polls := polls })

def setGate (j : Journal) (isOpen : Bool) : Journal := { j with gateOpen := isOpen }

def drain (j : Journal) : List Event × Journal := (j.events.reverse, { j with events := [] })

end Journal

end TracingHeap
