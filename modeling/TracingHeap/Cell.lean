import TracingHeap.Handle
import TracingHeap.Text.Quoted

namespace TracingHeap

inductive Strength where
  | strong
  | weak
deriving DecidableEq

def Strength.name : Strength → String
  | strong => "Strong"
  | weak => "Weak"

/-- A container whose references only a collector function can list. -/
inductive Container where
  /-- Two lists of reference slots. -/
  | bag (strong weak : Array Slot)
  /-- A container without references. -/
  | sealed

inductive Cell where
  | value (n : UInt64)
  | ref (slot : Slot)
  | refs (slots : Array Slot)
  /-- A growable array of structs, each with cells of its own. -/
  | structs (elements : Array (Array Cell))
  | container (c : Container)

inductive Place where
  /-- The cell is the slot. -/
  | here
  /-- An entry of a reference array. -/
  | item (i : Nat)
  /-- An entry of the strong list of a bag. -/
  | strongItem (i : Nat)
  /-- An entry of the weak list of a bag. -/
  | weakItem (i : Nat)
  /-- A place in the cell at `offset` of the `i`th element of a struct array. -/
  | element (i offset : Nat) (rest : Place)
deriving DecidableEq

/-- Where in a row of cells a reference slot is. -/
structure Address where
  offset : Nat
  place : Place
deriving DecidableEq

/-- The address, in the row that holds a struct array at `offset`, of an address in its `i`th
element. -/
def Address.within (a : Address) (offset i : Nat) : Address :=
  ⟨offset, .element i a.offset a.place⟩

namespace Cell

def kindName : Cell → String
  | value _ => "value"
  | ref _ => "reference"
  | refs _ => "reference array"
  | structs _ => "struct array"
  | container _ => "opaque container"

/-- Takes in a reference: a reference cell holds it instead of its own, an array behind its own. -/
def hold (c : Cell) (target : Slot) : Cell :=
  match c with
  | ref _ => ref target
  | refs slots => refs (slots.push target)
  | d => d

/-- The slot at a place, if the cell has that place. -/
def slot? (c : Cell) : Place → Option Slot
  | .here => match c with
    | ref s => some s
    | _ => none
  | .item i => match c with
    | refs ss => ss[i]?
    | _ => none
  | .strongItem i => match c with
    | container (.bag ss _) => ss[i]?
    | _ => none
  | .weakItem i => match c with
    | container (.bag _ ws) => ws[i]?
    | _ => none
  | .element i offset rest => match c with
    | structs es => match es[i]? with
      | some cells => match cells[offset]? with
        | some d => d.slot? rest
        | none => none
      | none => none
    | _ => none

/-- Makes the slot at a place name nothing. -/
def clear (c : Cell) : Place → Cell
  | .here => match c with
    | ref _ => ref none
    | d => d
  | .item i => match c with
    | refs ss => refs (ss.setIfInBounds i none)
    | d => d
  | .strongItem i => match c with
    | container (.bag ss ws) => container (.bag (ss.setIfInBounds i none) ws)
    | d => d
  | .weakItem i => match c with
    | container (.bag ss ws) => container (.bag ss (ws.setIfInBounds i none))
    | d => d
  | .element i offset rest => match c with
    | structs es => structs (es.modify i fun cells => cells.modify offset fun d => d.clear rest)
    | d => d

mutual

def debugText : Cell → String
  | value n => "Value(" ++ toString n.toNat ++ ")"
  | ref s => s.debugText
  | refs ss => Text.bracketed (ss.toList.map Slot.debugText)
  | structs ⟨es⟩ => Text.bracketed (elementTexts es)
  | container _ => "Opaque(..)"

def elementTexts : List (Array Cell) → List String
  | [] => []
  | ⟨cells⟩ :: rest => Text.bracketed (cellTexts cells) :: elementTexts rest

def cellTexts : List Cell → List String
  | [] => []
  | c :: rest => c.debugText :: cellTexts rest

end

def rowText (cells : Array Cell) : String :=
  Text.bracketed (cellTexts cells.toList)

def slotAt? (cells : Array Cell) (a : Address) : Option Slot :=
  match cells[a.offset]? with
  | some c => c.slot? a.place
  | none => none

def clearAt (cells : Array Cell) (a : Address) : Array Cell :=
  cells.modify a.offset fun c => c.clear a.place

end Cell

end TracingHeap
