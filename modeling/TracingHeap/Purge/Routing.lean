import TracingHeap.Purge.Basic

namespace TracingHeap

structure Routing where
  table : Table
  journal : Journal
  cursor : Nat
  parked : Array Handle
  /-- How often the clock has been looked at. -/
  looks : Nat

/-- Takes an entry out; the last one moves to its place. -/
def swapRemove (a : Array Handle) (i : Nat) : Array Handle :=
  (a.swapIfInBounds i (a.size - 1)).pop

/-- The objects between two looks at the clock. -/
def routingGranularity : Nat := 10

namespace Routing

def begin (r : Routing) (o : Object) (l : Lifecycle) : Routing :=
  if o.has .beginDestroyed then r
  else
    { r with
      table := r.table.setFlag o.handle .beginDestroyed
      journal := match l.beginWord with
        | some word => r.journal.enter (.began word o.name o.handle)
        | none => r.journal }

/-- Asks whether an object is ready; one without a readiness hook is. -/
def ask (r : Routing) (o : Object) (l : Lifecycle) : Bool × Routing :=
  match l.readiness with
  | none => (true, r)
  | some ready =>
    let (answer, journal) := r.journal.poll ready o
    (answer, { r with journal := journal })

def finish (r : Routing) (o : Object) (l : Lifecycle) : Routing :=
  if o.has .finishDestroyed then r
  else
    { r with
      table := r.table.setFlag o.handle .finishDestroyed
      journal := match l.finishWord with
        | some word => r.journal.enter (.finished word o.name o.handle)
        | none => r.journal }

def park (r : Routing) (h : Handle) : Routing := { r with parked := r.parked.push h }

/-- Destroys an unreachable object as far as it is ready. -/
def destroy (s : Schema) (r : Routing) (o : Object) : Except Fault Routing :=
  if o.has .finishDestroyed then .error (.finishedEarly o.handle)
  else
    let l := s.lifecycle o.classId
    let (ready, r) := (r.begin o l).ask o l
    .ok (if ready then r.finish o l else r.park o.handle)

def step (s : Schema) (r : Routing) : Except Fault Routing := do
  let r ← match r.table.slot? r.cursor with
    | some o => if o.isUnreachable then r.destroy s o else pure r
    | none => pure r
  return { r with cursor := r.cursor + 1 }

/-- Walks over the slots that are left, `seen` being the number of those behind. The answer tells
whether the deadline cut the walk short. -/
def walk (s : Schema) (deadline : Option Deadline) : (left seen : Nat) → Routing →
    Except Fault (Bool × Routing)
  | 0, _, r => .ok (false, r)
  | left + 1, seen, r => do
    let r ← r.step s
    if seen % routingGranularity = 0 then
      let stop := mustStop deadline r.looks
      let r := { r with looks := r.looks + 1 }
      if stop then return (true, r)
      walk s deadline left (seen + 1) r
    else walk s deadline left (seen + 1) r

/-- Asks the parked object at an index again. The answer is the index of the next one: the object
stays if it is not ready and leaves the list if it is, or if it is gone. -/
def retry (s : Schema) (r : Routing) (i : Nat) : Nat × Routing :=
  match r.parked[i]? with
  | none => (i, r)
  | some h =>
    match r.table.get? h with
    | none => (i, { r with parked := swapRemove r.parked i })
    | some o =>
      let l := s.lifecycle o.classId
      let (ready, r) := r.ask o l
      if ready then
        let r := r.finish o l
        (i, { r with parked := swapRemove r.parked i })
      else (i + 1, r)

def retryFrom (s : Schema) (deadline : Option Deadline) : (left seen i : Nat) → Routing →
    Bool × Routing
  | 0, _, _, r => (false, r)
  | left + 1, seen, i, r =>
    let (i, r) := r.retry s i
    if seen % routingGranularity = 0 then
      let stop := mustStop deadline r.looks
      let r := { r with looks := r.looks + 1 }
      if stop then (true, r)
      else retryFrom s deadline left (seen + 1) i r
    else retryFrom s deadline left (seen + 1) i r

def retryPass (s : Schema) (deadline : Option Deadline) (r : Routing) : Bool × Routing :=
  retryFrom s deadline r.parked.size 0 0 r

/-- For how many polls an object of the table is waited for, if not for ever. -/
def wait (s : Schema) (r : Routing) (h : Handle) : Nat :=
  match r.table.get? h with
  | none => 0
  | some o => match (s.lifecycle o.classId).readiness with
    | none => 0
    | some ready => (r.journal.wanted ready o).getD 0

/-- A number of passes after which every parked object that is ever ready has been. -/
def patience (s : Schema) (r : Routing) : Nat :=
  r.parked.foldl (fun n h => max n (r.wait s h)) 0 + 1

def retryAll (s : Schema) : Nat → Routing → Except Fault Routing
  | 0, r => if r.parked.isEmpty then .ok r else .error .stalled
  | n + 1, r => if r.parked.isEmpty then .ok r else retryAll s n (r.retryPass s none).2

/-- The parked objects are asked once before a deadline, and until all are ready without one. -/
def settle (s : Schema) (deadline : Option Deadline) (r : Routing) :
    Except Fault (Bool × Routing) :=
  match deadline with
  | some _ => .ok (r.retryPass s deadline)
  | none => do return (false, ← retryAll s (r.patience s) r)

end Routing

end TracingHeap
