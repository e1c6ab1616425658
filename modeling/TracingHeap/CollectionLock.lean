namespace TracingHeap

/-- Any number of holders can keep collections off; a collection needs the lock for itself. -/
structure CollectionLock where
  /-- How many holders keep collections off. -/
  holders : Nat
  /-- A collection has the lock. -/
  taken : Bool
deriving DecidableEq

namespace CollectionLock

def free : CollectionLock := ⟨0, false⟩

/-- Keeps collections off; nothing if the caller would have to wait for a collection. -/
def hold? (l : CollectionLock) : Option CollectionLock :=
  if l.taken then none else some { l with holders := l.holders + 1 }

def letGo (l : CollectionLock) : CollectionLock := { l with holders := l.holders - 1 }

/-- Takes the lock; nothing if the caller would have to wait. -/
def take? (l : CollectionLock) : Option CollectionLock :=
  if l.taken || l.holders != 0 then none else some { l with taken := true }

def giveBack (l : CollectionLock) : CollectionLock := { l with taken := false }

/-- Whether a collection or a purge is at work. Each runs to its end before the next call, so no
call ever finds one. -/
def isCollecting (_ : CollectionLock) : Bool := false

end CollectionLock

end TracingHeap
