namespace TracingHeap

/-- A generator of pseudo-random numbers. The state moves by a fixed odd step, so it takes every value once
before it repeats. -/
structure Random where
  state : UInt64
deriving DecidableEq

namespace Random

def mix (x : UInt64) : UInt64 :=
  let y := (x ^^^ (x >>> 30)) * 0xbf58476d1ce4e5b9
  let z := (y ^^^ (y >>> 27)) * 0x94d049bb133111eb
  z ^^^ (z >>> 31)

/-- The next number is the next state with its bits mixed. -/
def next (r : Random) : UInt64 × Random :=
  let state := r.state + 0x9e3779b97f4a7c15
  (mix state, ⟨state⟩)

def below (r : Random) (bound : Nat) : Nat × Random :=
  let (x, r) := r.next
  (x.toNat % bound, r)

def pick {α : Type} (r : Random) (entries : Array α) : Option α × Random :=
  let (i, r) := r.below entries.size
  (entries[i]?, r)

end Random

end TracingHeap
