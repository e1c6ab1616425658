import TracingHeap.Object

namespace TracingHeap

/-- Slot 0 is never used; freed slots are used again, the latest first. The slots below the boundary form the
permanent pool, whose objects are never marked, traced or freed. -/
structure Table where
  slots : Array (Option Object)
  /-- Freed slots, the latest first. -/
  free : List Handle
  /-- The first slot outside the permanent pool. -/
  boundary : Nat
  /-- The number of objects. -/
  live : Nat

structure Site where
  object : Handle
  address : Address
deriving DecidableEq

namespace Table

def empty : Table := ⟨#[none], [], 1, 0⟩

def capacity (t : Table) : Nat := t.slots.size

def slot? (t : Table) (i : Nat) : Option Object := t.slots[i]?.join

def get? (t : Table) (h : Handle) : Option Object := t.slot? h.index

def contains (t : Table) (h : Handle) : Bool := (t.get? h).isSome

def isEmpty (t : Table) : Bool := t.live == 0

def modify (t : Table) (h : Handle) (f : Object → Object) : Table :=
  { t with slots := t.slots.modify h.index (Option.map f) }

def setFlag (t : Table) (h : Handle) (f : Flag) : Table := t.modify h (·.set f)

def clearFlag (t : Table) (h : Handle) (f : Flag) : Table := t.modify h (·.clear f)

def slotAt? (t : Table) (s : Site) : Option Slot := do
  (← t.get? s.object).slot? s.address

def clearSite (t : Table) (s : Site) : Table := t.modify s.object (·.clearSlot s.address)

/-- Whether an object has a flag; a handle without an object has none. -/
def has (t : Table) (h : Handle) (f : Flag) : Bool :=
  match t.get? h with
  | some o => o.has f
  | none => false

def isUnreachable (t : Table) (h : Handle) : Bool := t.has h .unreachable

/-- Puts a new object into a freed slot, or into a new one at the end of the table. A new slot
whose number is too great for a handle stays empty. -/
def allocate (t : Table) (classId : ClassId) (name : String) (cells : Array Cell) :
    Option Handle × Table :=
  match t.free with
  | h :: rest =>
    (some h, { t with
      slots := t.slots.setIfInBounds h.index (some (.fresh h classId name cells))
      free := rest
      live := t.live + 1 })
  | [] =>
    match Handle.ofIndex? t.slots.size with
    | some h =>
      (some h, { t with
        slots := t.slots.push (some (.fresh h classId name cells))
        live := t.live + 1 })
    | none => (none, { t with slots := t.slots.push none })

def isPermanent (t : Table) (h : Handle) : Bool := decide (h.index < t.boundary)

/-- Empties a slot. Permanent objects and empty slots are left alone. -/
def release (t : Table) (h : Handle) : Table :=
  if t.isPermanent h then t
  else if t.contains h then
    { t with
      slots := t.slots.setIfInBounds h.index none
      free := h :: t.free
      live := t.live - 1 }
  else t

def closePermanentPool (t : Table) : Table :=
  let boundary := min t.slots.size 4294967295
  { t with
    boundary := boundary
    free := t.free.filter fun h => decide (boundary ≤ h.index) }

def objects (t : Table) : List Object := t.slots.toList.filterMap id

def collectable (t : Table) : List Object := (t.slots.toList.drop t.boundary).filterMap id

def permanent (t : Table) : List Object := (t.slots.toList.take t.boundary).filterMap id

def countWith (t : Table) (m : Flags) : Nat := t.collectable.countP (·.flags.contains m)

end Table

end TracingHeap
