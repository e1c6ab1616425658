import TracingHeap.Duration

namespace TracingHeap

structure PhaseTiming where
  name : String
  duration : Duration
deriving DecidableEq

/-- The phases gone through, in order; a name may come more than once. -/
structure Profile where
  phases : List PhaseTiming
deriving DecidableEq

namespace Profile

def empty : Profile := ⟨[]⟩

def push (p : Profile) (name : String) (d : Duration) : Profile := ⟨p.phases ++ [⟨name, d⟩]⟩

def record {α : Type} (p : Profile) (name : String) (made : α) (d : Duration) : α × Profile :=
  (made, p.push name d)

def total (p : Profile) (name : String) : Except Fault Duration :=
  Duration.sum ((p.phases.filter (·.name == name)).map (·.duration))

def names (p : Profile) : List String := p.phases.map (·.name)

def size (p : Profile) : Nat := p.phases.length

end Profile

end TracingHeap
