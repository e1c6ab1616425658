import TracingHeap.Purge.Routing

namespace TracingHeap

structure Sweep where
  table : Table
  cursor : Nat
  /-- The objects freed by this call. -/
  freed : Nat
  looks : Nat

/-- The objects freed between two looks at the clock. -/
def sweepGranularity : Nat := 100

namespace Sweep

/-- The object at the cursor is freed if it is unreachable, which the answer tells, and the cursor
moves on. -/
def step (w : Sweep) : Except Fault (Bool × Sweep) := do
  let next := { w with cursor := w.cursor + 1 }
  match w.table.slot? w.cursor with
  | none => return (false, next)
  | some o =>
    if !o.isUnreachable then return (false, next)
    if !o.has .beginDestroyed then throw (.fatal (.purgeProtocol o.handle "begin_destroy"))
    if !o.has .finishDestroyed then throw (.fatal (.purgeProtocol o.handle "finish_destroy"))
    return (true, { next with table := w.table.release o.handle, freed := w.freed + 1 })

def walk (deadline : Option Deadline) : (left : Nat) → Sweep → Except Fault (Bool × Sweep)
  | 0, w => .ok (true, w)
  | left + 1, w => do
    let (isFreed, w) ← w.step
    if isFreed && w.freed % sweepGranularity = 0 then
      let stop := mustStop deadline w.looks
      let w := { w with looks := w.looks + 1 }
      if stop then return (false, w)
      walk deadline left w
    else walk deadline left w

end Sweep

structure PurgeState where
  purge : Purge
  table : Table
  journal : Journal

namespace PurgeState

def ofRouting (purge : Purge) (r : Routing) : PurgeState :=
  ⟨{ purge with cursor := r.cursor, parked := r.parked }, r.table, r.journal⟩

/-- The first phase is over when the walk came to its end and nothing is parked. -/
def endRouting (p : PurgeState) : PurgeState :=
  if p.purge.parked.isEmpty then { p with purge := { p.purge with routed := true, rewind := true } }
  else p

/-- The first phase, or what is left of it. The answer is whether the deadline cut it short and how
often the clock was looked at. -/
def route (s : Schema) (deadline : Option Deadline) (purge : Purge) (table : Table)
    (journal : Journal) : Except Fault (Bool × Nat × PurgeState) := do
  let left := table.capacity - purge.cursor
  let (cut, r) ← Routing.walk s deadline left 0 ⟨table, journal, purge.cursor, purge.parked, 0⟩
  if cut then return (true, r.looks, ofRouting purge r)
  let (late, r) ← r.settle s deadline
  return (late, r.looks, (ofRouting purge r).endRouting)

def sweep (deadline : Option Deadline) (looks : Nat) (purge : Purge) (table : Table) :
    Except Fault (Bool × Purge × Table) := do
  let purge := purge.placeCursor table
  let (ended, w) ← Sweep.walk deadline (table.capacity - purge.cursor)
    ⟨table, purge.cursor, 0, looks⟩
  return (ended, { purge with cursor := w.cursor, purged := purge.purged + w.freed }, w.table)

/-- Carries a purge on up to a deadline, or to its end. -/
def run (s : Schema) (deadline : Option Deadline) (p : PurgeState) :
    Except Fault (Progress × PurgeState) := do
  let ⟨purge, table, journal⟩ := p
  if !purge.required then return (⟨0, true⟩, ⟨purge, table, journal⟩)
  let before := purge.purged
  let purge := purge.placeCursor table
  let (cut, looks, p) ←
    if purge.routed then pure (false, 0, ⟨purge, table, journal⟩)
    else route s deadline purge table journal
  let ⟨purge, table, journal⟩ := p
  let (completed, purge, table) ←
    if purge.routed && !cut then sweep deadline looks purge table
    else pure (false, purge, table)
  let progress : Progress := ⟨purge.purged - before, completed⟩
  return (progress, ⟨if completed then purge.reset else purge, table, journal⟩)

end PurgeState

end TracingHeap
