namespace TracingHeap

inductive Phase where
  /-- Finishing a purge that an earlier collection left. -/
  | finishPreviousPurge
  | verify
  | mark
  /-- Dissolving the clusters whose roots are dead. -/
  | unhash
  | clearWeakReferences
  | purge
deriving DecidableEq

def Phase.name : Phase → String
  | finishPreviousPurge => "finish_previous_purge"
  | verify => "verify"
  | mark => "mark"
  | unhash => "unhash"
  | clearWeakReferences => "clear_weak_references"
  | purge => "purge"

structure Statistics where
  /-- The collectable objects present when marking began. -/
  considered : Nat
  /-- The objects looked at by the trace. -/
  scanned : Nat
  /-- The collectable objects left flagged unreachable. -/
  unreachable : Nat
  /-- The clusters broken up. -/
  dissolved : Nat
  /-- The weak references nulled because their targets died. -/
  weakCleared : Nat
  /-- The objects freed, those of an earlier purge included. -/
  purged : Nat
  waves : Nat
  /-- Whether marking could use several workers. -/
  parallel : Bool
  /-- The phases gone through, in order. -/
  phases : List Phase
deriving DecidableEq

end TracingHeap
