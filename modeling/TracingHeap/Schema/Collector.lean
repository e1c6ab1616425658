import TracingHeap.Schema.Kind

namespace TracingHeap

/-- Lists the reference slots of an object that its fields do not describe. -/
abbrev ObjectCollector := Object → List (Address × Strength)

namespace Cell

def bagStrong : Cell → List Place
  | .container (.bag ss _) => (List.range ss.size).map .strongItem
  | _ => []

def bagWeak : Cell → List Place
  | .container (.bag _ ws) => (List.range ws.size).map .weakItem
  | _ => []

/-- The strong slots in order, then the weak slots in order. -/
def bagSlots : CellCollector := fun c =>
  c.bagStrong.map (·, .strong) ++ c.bagWeak.map (·, .weak)

/-- The weak slots from last to first, then the strong slots from last to first. -/
def bagSlotsReversed : CellCollector := fun c =>
  c.bagWeak.reverse.map (·, .weak) ++ c.bagStrong.reverse.map (·, .strong)

/-- The strong slots, then the weak slots, all as weak references. -/
def bagSlotsWeak : CellCollector := fun c =>
  (c.bagStrong ++ c.bagWeak).map (·, .weak)

end Cell

namespace Object

def numberedCells (o : Object) : List (Nat × Cell) :=
  (List.range o.cells.size).zip o.cells.toList

def report (offset : Nat) (found : List (Place × Strength)) : List (Address × Strength) :=
  found.map fun p => (⟨offset, p.1⟩, p.2)

def bagSlots : ObjectCollector := fun o =>
  o.numberedCells.flatMap fun p => report p.1 p.2.bagSlots

/-- The slots of every bag as weak references, from the last cell to the first. -/
def bagSlotsWeak : ObjectCollector := fun o =>
  o.numberedCells.reverse.flatMap fun p => report p.1 p.2.bagSlotsWeak

end Object

end TracingHeap
