import TracingHeap.Token.Basic

namespace TracingHeap

mutual

/-- The tokens of a field whose cells start at `offset`; the first of them is at index `start`. -/
def Kind.emit (className field : String) (start offset : Nat) : Kind → List Entry
  | .value => []
  | .reference s => [⟨.reference offset s, ⟨className, field, offset⟩⟩]
  | .references s => [⟨.references offset s, ⟨className, field, offset⟩⟩]
  | .fixed element count =>
    if count = 0 || !element.holdsReferences then []
    else if count = 1 then element.emit className field start offset
    else
      let inner := element.emit className field (start + 1) 0
      ⟨.fixed offset element.width count (start + inner.length + 2), ⟨className, field, offset⟩⟩
        :: inner ++ [⟨.ret, ⟨className, field, 0⟩⟩]
  | .inline _ fields => fields.emit className (field ++ ".") start offset
  | .structs _ fields =>
    if fields.holdReferences then
      let inner := fields.emit className (field ++ ".") (start + 1) 0
      ⟨.structs offset (start + inner.length + 2), ⟨className, field, offset⟩⟩
        :: inner ++ [⟨.ret, ⟨className, field, 0⟩⟩]
    else []
  | .container spec =>
    match spec.holdsReferences, spec.collector with
    | true, some collector => [⟨.container offset collector, ⟨className, field, offset⟩⟩]
    | _, _ => []

/-- The tokens of consecutive fields; `path` stands in front of their names. -/
def Fields.emit (className path : String) (start offset : Nat) : Fields → List Entry
  | .nil => []
  | .cons name kind rest =>
    let own := kind.emit className (path ++ name) start offset
    own ++ rest.emit className path (start + own.length) (offset + kind.width)

end

mutual

/-- Whether the tokens of a field can be emitted: every offset and stride met on the way fits, and
every container met that holds references has a collector. -/
def Kind.checkEmission (className field : String) (offset : Nat) : Kind → Except Fault Unit
  | .fixed element count =>
    if count = 0 || !element.holdsReferences then .ok ()
    else if count = 1 then element.checkEmission className field offset
    else do
      let _ ← element.checkedWidth
      element.checkEmission className field 0
  | .inline _ fields =>
    if fields.holdReferences then fields.checkEmission className (field ++ ".") offset else .ok ()
  | .structs _ fields =>
    if fields.holdReferences then fields.checkEmission className (field ++ ".") 0 else .ok ()
  | .container spec =>
    if spec.holdsReferences && spec.collector.isNone then
      .error (.fatal (.missingReferenceDescriptor className field))
    else .ok ()
  | _ => .ok ()

def Fields.checkEmission (className path : String) (offset : Nat) : Fields → Except Fault Unit
  | .nil => .ok ()
  | .cons name kind rest => do
    kind.checkEmission className (path ++ name) offset
    let next ← addSizes offset (← kind.checkedWidth)
    rest.checkEmission className path next

end

namespace TokenStream

def inherited (parent : Option TokenStream) : List Entry :=
  match parent with
  | some ts => ts.entries.toList.filter fun e => !e.token.isStop
  | none => []

/-- Puts a collector for whole objects in the place of an inherited one, or else at the end. -/
def withCollector (className : String) (collector : ObjectCollector) : List Entry → List Entry
  | [] => [⟨.object collector, ⟨className, "AddReferencedObjects", 0⟩⟩]
  | e :: rest =>
    if e.token.isObject then
      ⟨.object collector, { e.origin with className := className }⟩ :: rest
    else e :: withCollector className collector rest

/-- The stream of a class whose own fields start at `base`. The tokens of the superclass stand in front, and
there are at most one collector for whole objects and one end token. -/
def assemble (className : String) (base : Nat) (fields : Fields)
    (collector : Option ObjectCollector) (parent : Option TokenStream) :
    Except Fault TokenStream := do
  fields.checkEmission className "" base
  let front := inherited parent
  let body := front ++ fields.emit className "" front.length base
  let body := match collector with
    | some f => withCollector className f body
    | none => body
  return ⟨(body ++ [⟨.stop, ⟨className, "EndOfStream", 0⟩⟩]).toArray⟩

end TokenStream

end TracingHeap
