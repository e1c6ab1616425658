namespace TracingHeap

def ceilDiv (a b : Nat) : Nat := (a + b - 1) / b

/-- The number of objects in a batch: at least `least`, and enough that neither the workers nor
the task outputs are too few. -/
def batchSize (length workers outputs least : Nat) : Nat :=
  max (max least (ceilDiv length workers)) (ceilDiv length outputs)

def taskCount (length batch : Nat) : Nat := ceilDiv length batch

/-- Consecutive pieces of `n` entries each; the last may be shorter. -/
def chunks {α : Type} (n : Nat) (l : List α) : List (List α) :=
  if _ : n = 0 ∨ l.length = 0 then []
  else l.take n :: chunks n (l.drop n)
termination_by l.length
decreasing_by
  rw [List.length_drop]
  omega

end TracingHeap
