import TracingHeap.Cell
import TracingHeap.Flags

namespace TracingHeap

/-- The position of a class among the registered classes. -/
structure ClassId where
  index : Nat
deriving DecidableEq

namespace ClassId

def text (c : ClassId) : String := "class#" ++ toString c.index

def debugText (c : ClassId) : String := "ClassId(" ++ toString c.index ++ ")"

end ClassId

structure Object where
  handle : Handle
  classId : ClassId
  name : String
  flags : Flags
  /-- The root of the cluster the object is a member of. -/
  owner : Option Handle
  cells : Array Cell

namespace Object

def fresh (handle : Handle) (classId : ClassId) (name : String) (cells : Array Cell) : Object :=
  ⟨handle, classId, name, .empty, none, cells⟩

def has (o : Object) (f : Flag) : Bool := o.flags.has f

def isUnreachable (o : Object) : Bool := o.has .unreachable

def set (o : Object) (f : Flag) : Object := { o with flags := o.flags.set f }

def clear (o : Object) (f : Flag) : Object := { o with flags := o.flags.clear f }

def insertFlags (o : Object) (m : Flags) : Object := { o with flags := o.flags.insert m }

def removeFlags (o : Object) (m : Flags) : Object := { o with flags := o.flags.remove m }

def setOwner (o : Object) (owner : Option Handle) : Object := { o with owner := owner }

def slot? (o : Object) (a : Address) : Option Slot := Cell.slotAt? o.cells a

def clearSlot (o : Object) (a : Address) : Object := { o with cells := Cell.clearAt o.cells a }

def modifyCell (o : Object) (offset : Nat) (f : Cell → Cell) : Object :=
  { o with cells := o.cells.modify offset f }

def debugText (o : Object) : String :=
  "Object \x7b handle: " ++ o.handle.debugText ++ ", class: " ++ o.classId.debugText
    ++ ", name: " ++ Text.quoted o.name ++ ", flags: " ++ o.flags.debugText
    ++ ", owner: " ++ toString (Slot.raw o.owner) ++ ", fields: " ++ Cell.rowText o.cells ++ " \x7d"

end Object

end TracingHeap
