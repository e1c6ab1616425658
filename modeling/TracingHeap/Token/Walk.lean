import TracingHeap.Token.Basic

namespace TracingHeap

structure Visit where
  address : Address
  strength : Strength
  token : Nat
deriving DecidableEq

structure Walk where
  visits : List Visit
  fault : Option Fault

namespace Walk

def done : Walk := ⟨[], none⟩

def broken (f : Fault) : Walk := ⟨[], some f⟩

/-- One walk and then, if it was not broken off, another. -/
def andThen (a b : Walk) : Walk :=
  match a.fault with
  | some f => ⟨a.visits, some f⟩
  | none => ⟨a.visits ++ b.visits, b.fault⟩

/-- The walks `f i`, `f (i + 1)` and so on, `count` of them or up to the first that is broken off.
The rest is not looked at, so the count may be greater than any number of cells. -/
def each (f : Nat → Walk) (i : Nat) : (count : Nat) → Walk
  | 0 => done
  | n + 1 =>
    match f i with
    | ⟨visits, some e⟩ => ⟨visits, some e⟩
    | ⟨visits, none⟩ => (Walk.mk visits none).andThen (each f (i + 1) n)

/-- A walk over an element of a struct array, seen from the row that holds the array. -/
def within (w : Walk) (offset i : Nat) : Walk :=
  ⟨w.visits.map fun v => { v with address := v.address.within offset i }, w.fault⟩

def complete (w : Walk) : Except Fault (List Visit) :=
  match w.fault with
  | some e => .error e
  | none => .ok w.visits

def foldM {σ : Type} (w : Walk) (f : σ → Visit → Except Fault σ) (s : σ) : Except Fault σ := do
  let s ← w.visits.foldlM f s
  match w.fault with
  | some e => .error e
  | none => return s

end Walk

def mismatch (o : Object) (offset : Nat) (expected : String) : Walk :=
  .broken (.fatal (.fieldMismatch o.name offset expected))

namespace TokenStream

/-- Reads the tokens from index `i` up to `stop` over a row of cells; offsets count from `base`. -/
def walkRange (ts : TokenStream) (o : Object) (cells : Array Cell) (base i stop : Nat) : Walk :=
  if _ : i < stop then
    match ts.token? i with
    | none | some .stop => .done
    | some .ret => ts.walkRange o cells base (i + 1) stop
    | some (.reference offset s) =>
      match cells[base + offset]? with
      | some (.ref _) =>
        (Walk.mk [⟨⟨base + offset, .here⟩, s, i⟩] none).andThen
          (ts.walkRange o cells base (i + 1) stop)
      | some _ => mismatch o (base + offset) "reference"
      | none => mismatch o (base + offset) "field"
    | some (.references offset s) =>
      match cells[base + offset]? with
      | some (.refs slots) =>
        (Walk.mk ((List.range slots.size).map fun k => ⟨⟨base + offset, .item k⟩, s, i⟩)
          none).andThen (ts.walkRange o cells base (i + 1) stop)
      | some _ => mismatch o (base + offset) "reference array"
      | none => mismatch o (base + offset) "field"
    | some (.fixed offset stride count skip) =>
      if _ : i < skip ∧ skip ≤ stop then
        (Walk.each (fun e =>
          ts.walkRange o cells (base + offset + e * stride) (i + 1) (skip - 1)) 0 count).andThen
          (ts.walkRange o cells base skip stop)
      else .done
    | some (.structs offset skip) =>
      match cells[base + offset]? with
      | some (.structs elements) =>
        if _ : i < skip ∧ skip ≤ stop then
          (Walk.each (fun e =>
            (ts.walkRange o (elements.getD e #[]) 0 (i + 1) (skip - 1)).within
              (base + offset) e) 0 elements.size).andThen
            (ts.walkRange o cells base skip stop)
        else .done
      | some _ => mismatch o (base + offset) "struct array"
      | none => mismatch o (base + offset) "field"
    | some (.container offset collector) =>
      match cells[base + offset]? with
      | some c =>
        (Walk.mk ((collector c).map fun p => ⟨⟨base + offset, p.1⟩, p.2, i⟩) none).andThen
          (ts.walkRange o cells base (i + 1) stop)
      | none => mismatch o (base + offset) "field"
    | some (.object collector) =>
      (Walk.mk ((collector o).map fun p => ⟨p.1, p.2, i⟩) none).andThen
        (ts.walkRange o cells base (i + 1) stop)
  else .done
termination_by stop - i

/-- The reference slots of an object, each collector being asked about the object as it stands when the walk
begins. A stream that does not fit the cells ends the walk with a fault; the slots found before still
count. -/
def walk (ts : TokenStream) (o : Object) : Walk :=
  ts.walkRange o o.cells 0 0 ts.size

end TokenStream

end TracingHeap
