import TracingHeap.Error

namespace TracingHeap

/-- Lists the reference slots of a container cell. -/
abbrev CellCollector := Cell → List (Place × Strength)

structure ContainerSpec where
  holdsReferences : Bool
  collector : Option CellCollector
  /-- What a new container holds. -/
  contents : Container

mutual

inductive Kind where
  /-- Plain data. -/
  | value
  | reference (s : Strength)
  /-- A growable array of references. -/
  | references (s : Strength)
  /-- A number of consecutive fields of one kind. -/
  | fixed (element : Kind) (count : Nat)
  /-- A struct whose fields lie in the enclosing layout. -/
  | inline (name : String) (fields : Fields)
  /-- A growable array of structs. -/
  | structs (name : String) (fields : Fields)
  | container (spec : ContainerSpec)

inductive Fields where
  | nil
  | cons (name : String) (kind : Kind) (rest : Fields)

end

def Fields.ofList : List (String × Kind) → Fields
  | [] => .nil
  | (name, kind) :: rest => .cons name kind (ofList rest)

def Fields.toList : Fields → List (String × Kind)
  | .nil => []
  | .cons name kind rest => (name, kind) :: rest.toList

mutual

def Kind.width : Kind → Nat
  | .fixed element count => element.width * count
  | .inline _ fields => fields.width
  | _ => 1

def Fields.width : Fields → Nat
  | .nil => 0
  | .cons _ kind rest => kind.width + rest.width

end

mutual

/-- The number of cells a field takes, if every size met on the way fits. -/
def Kind.checkedWidth : Kind → Except Fault Nat
  | .fixed element count => do mulSizes (← element.checkedWidth) count
  | .inline _ fields => fields.checkedWidth 0
  | _ => .ok 1

def Fields.checkedWidth (before : Nat) : Fields → Except Fault Nat
  | .nil => .ok before
  | .cons _ kind rest => do
    let next ← addSizes before (← kind.checkedWidth)
    rest.checkedWidth next

end

mutual

def Kind.holdsReferences : Kind → Bool
  | .value => false
  | .reference _ | .references _ => true
  | .fixed element count => decide (0 < count) && element.holdsReferences
  | .inline _ fields | .structs _ fields => fields.holdReferences
  | .container spec => spec.holdsReferences

def Fields.holdReferences : Fields → Bool
  | .nil => false
  | .cons _ kind rest => kind.holdsReferences || rest.holdReferences

end

mutual

/-- The cells of a field in a new object. Elements without cells are passed over at once, for there
may be any number of them. -/
def Kind.cells : Kind → List Cell
  | .value => [.value 0]
  | .reference _ => [.ref none]
  | .references _ => [.refs #[]]
  | .fixed element count =>
    if element.width * count = 0 then [] else (List.replicate count element.cells).flatten
  | .inline _ fields => fields.cells
  | .structs _ _ => [.structs #[]]
  | .container spec => [.container spec.contents]

def Fields.cells : Fields → List Cell
  | .nil => []
  | .cons _ kind rest => kind.cells ++ rest.cells

end

mutual

/-- A container that holds references must have a collector; `field` is the name by which an
offender is reported. -/
def Kind.check (className field : String) : Kind → Except HeapError Unit
  | .fixed element _ => element.check className field
  | .inline name fields | .structs name fields => fields.check className (name ++ ".")
  | .container spec =>
    if spec.holdsReferences && spec.collector.isNone then
      .error (.missingReferenceDescriptor className field)
    else .ok ()
  | _ => .ok ()

def Fields.check (className path : String) : Fields → Except HeapError Unit
  | .nil => .ok ()
  | .cons name kind rest => do
    kind.check className (path ++ name)
    rest.check className path

end

def Kind.debugText : Kind → String
  | .value => "Value"
  | .reference s => "Reference(" ++ s.name ++ ")"
  | .references s => "ReferenceArray(" ++ s.name ++ ")"
  | .fixed element count =>
    "FixedArray(" ++ element.debugText ++ "; " ++ toString count ++ ")"
  | .inline name _ => "Struct(" ++ name ++ ")"
  | .structs name _ => "StructArray(" ++ name ++ ")"
  | .container spec =>
    HeapError.recordText "Container"
      [("holds_references", toString spec.holdsReferences),
        ("has_collector", toString spec.collector.isSome)]

end TracingHeap
