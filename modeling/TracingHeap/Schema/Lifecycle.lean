import TracingHeap.Object

namespace TracingHeap

/-- For how many polls an object waits before it is ready, or none if it waits for ever; the
first argument tells whether the gate is open. -/
abbrev Readiness := Bool → Object → Option Nat

namespace Readiness

def afterPolls (n : Nat) : Readiness := fun _ _ => some n

/-- Ready at once while the gate is open, and at the `n`th poll while it is closed. -/
def gated (n : Nat) : Readiness := fun gateOpen _ => some (if gateOpen then 0 else n)

/-- Ready after as many polls as the first cell says, but no more than `n`; an object whose first
cell holds no value is ready at the first poll. -/
def byFirstCell (n : Nat) : Readiness := fun _ o =>
  match o.cells[0]? with
  | some (Cell.value v) => some (min v.toNat n)
  | _ => some 1

end Readiness

/-- The hooks of a class. They leave the heap alone; one that only takes notice is the word that it enters
into a journal. -/
structure Lifecycle where
  beginWord : Option String
  readiness : Option Readiness
  finishWord : Option String

namespace Lifecycle

def silent : Lifecycle := ⟨none, none, none⟩

/-- Every hook that a class does not declare is taken from its superclass. -/
def inherit (own parent : Lifecycle) : Lifecycle :=
  ⟨own.beginWord.or parent.beginWord, own.readiness.or parent.readiness,
    own.finishWord.or parent.finishWord⟩

end Lifecycle

end TracingHeap
