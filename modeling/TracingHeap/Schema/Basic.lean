import TracingHeap.Schema.Lifecycle
import TracingHeap.Token.Emission

namespace TracingHeap

structure ClassSpec where
  name : String
  superclass : Option ClassId
  fields : Fields
  collector : Option ObjectCollector
  lifecycle : Lifecycle

/-- What is kept of a registered class. Registration settles all that later calls read: the layout, the hooks
in force and the token stream. -/
structure ClassEntry where
  spec : ClassSpec
  /-- The offset of the first own cell; the cells of the superclass come before. -/
  base : Nat
  /-- The number of cells of an object, inherited cells included. -/
  width : Nat
  /-- The hooks in force, inherited hooks included. -/
  lifecycle : Lifecycle
  stream : Except Fault TokenStream
  /-- Whether the token stream has been asked for. -/
  assembled : Bool

structure Schema where
  classes : Array ClassEntry

namespace Schema

def empty : Schema := ⟨#[]⟩

def size (s : Schema) : Nat := s.classes.size

def get? (s : Schema) (id : ClassId) : Option ClassEntry := s.classes[id.index]?

def get (s : Schema) (id : ClassId) : Except HeapError ClassEntry :=
  match s.get? id with
  | some c => .ok c
  | none => .error (.unknownClass id)

def find? (s : Schema) (name : String) : Option ClassId :=
  (s.classes.findIdx? fun c => c.spec.name == name).map ClassId.mk

def parent (s : Schema) (spec : ClassSpec) : Except HeapError (Option ClassEntry) :=
  match spec.superclass with
  | none => .ok none
  | some id => (s.get id).map some

def layOut (spec : ClassSpec) (parent : Option ClassEntry) : Except Fault ClassEntry := do
  let base := match parent with
    | some p => p.width
    | none => 0
  let width ← addSizes base (← spec.fields.checkedWidth 0)
  let lifecycle := match parent with
    | some p => spec.lifecycle.inherit p.lifecycle
    | none => spec.lifecycle
  let stream := match parent with
    | some p => p.stream.bind fun ts =>
      TokenStream.assemble spec.name base spec.fields spec.collector (some ts)
    | none => TokenStream.assemble spec.name base spec.fields spec.collector none
  return ⟨spec, base, width, lifecycle, stream, false⟩

def classLimit : Nat := 4294967296

/-- The id of the next class, if there are ids left. -/
def nextId (s : Schema) : Except HeapError ClassId :=
  if s.size < classLimit then .ok ⟨s.size⟩
  else .error (.badSetting "class count" (toString s.size))

/-- Adds a class. Nothing changes when it is refused. -/
def register (s : Schema) (spec : ClassSpec) : Except Failure (ClassId × Schema) := do
  if (s.find? spec.name).isSome then
    throw (.error (.duplicateClass spec.name))
  (spec.fields.check spec.name "").mapError .error
  let parent ← (s.parent spec).mapError .error
  let id ← s.nextId.mapError .error
  let entry ← (layOut spec parent).mapError .fault
  return (id, ⟨s.classes.push entry⟩)

/-- A class and its superclasses, nearest first. -/
def ancestry (s : Schema) (id : ClassId) : List ClassId :=
  match s.get? id with
  | none => [id]
  | some c => match c.spec.superclass with
    | none => [id]
    | some p => if _ : p.index < id.index then id :: s.ancestry p else [id]
termination_by id.index

def isChildOf (s : Schema) (id ancestor : ClassId) : Bool := (s.ancestry id).contains ancestor

def stream (s : Schema) (id : ClassId) : Except Failure TokenStream := do
  let c ← (s.get id).mapError .error
  c.stream.mapError .fault

/-- Notes that the stream of a class was asked for; the streams it builds on are assembled with
it. -/
def noteAssembled (s : Schema) (id : ClassId) : Schema :=
  (s.ancestry id).foldl (fun t c =>
    ⟨t.classes.modify c.index fun e => { e with assembled := e.assembled || e.stream.isOk }⟩) s

def cellBytes : Nat := 32

def instantiate (s : Schema) (id : ClassId) : Except Failure (Array Cell) := do
  let c ← (s.get id).mapError .error
  (reserve c.width cellBytes).mapError .fault
  let own := (s.ancestry id).reverse.filterMap s.get?
  return (own.flatMap fun c => c.spec.fields.cells).toArray

/-- The hooks in force for a class; an unknown class has none. -/
def lifecycle (s : Schema) (id : ClassId) : Lifecycle :=
  match s.get? id with
  | some c => c.lifecycle
  | none => .silent

end Schema

end TracingHeap
