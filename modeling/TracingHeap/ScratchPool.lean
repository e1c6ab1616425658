namespace TracingHeap

/-- The accounts of the lists that marking borrows. A list comes back empty, so a list in the pool is a unit
to be counted. -/
structure ScratchPool where
  pooled : Nat
  /-- Lists borrowed and not returned; negative when lists from elsewhere were handed in. -/
  inUse : Int
  acquired : Nat
  released : Nat
  /-- Lists made because the pool had none. -/
  allocated : Nat
deriving DecidableEq

namespace ScratchPool

def empty : ScratchPool := ⟨0, 0, 0, 0, 0⟩

/-- Borrows a list, a new one when the pool has none. -/
def acquire (p : ScratchPool) : ScratchPool :=
  { p with
    pooled := p.pooled - 1
    inUse := p.inUse + 1
    acquired := p.acquired + 1
    allocated := if p.pooled = 0 then p.allocated + 1 else p.allocated }

def release (p : ScratchPool) : ScratchPool :=
  { p with
    pooled := p.pooled + 1
    inUse := p.inUse - 1
    released := p.released + 1 }

def isBalanced (p : ScratchPool) : Bool := p.inUse == 0

/-- Drops the lists in the pool; the first part is their number. -/
def cleanup (p : ScratchPool) : Nat × ScratchPool := (p.pooled, { p with pooled := 0 })

theorem acquire_balance (p : ScratchPool) :
    (p.acquire.acquired : Int) - p.acquire.released - p.acquire.inUse
      = p.acquired - p.released - p.inUse := by
  simp only [acquire]
  omega

theorem release_balance (p : ScratchPool) :
    (p.release.acquired : Int) - p.release.released - p.release.inUse
      = p.acquired - p.released - p.inUse := by
  simp only [release]
  omega

end ScratchPool

end TracingHeap
