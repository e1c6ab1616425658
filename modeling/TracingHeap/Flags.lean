namespace TracingHeap

inductive Flag where
  /-- Not yet proven reachable by the mark at hand. -/
  | unreachable
  /-- Killed explicitly; strong references to the object are nulled by the trace. -/
  | pendingKill
  /-- Exempt from collection. -/
  | rootSet
  /-- Root of a registered cluster. -/
  | clusterRoot
  /-- Cluster member referenced from outside its cluster by the mark at hand. -/
  | reachableInCluster
  /-- No strong edge has reached the object in the mark at hand. -/
  | noStrongReference
  /-- Kept whether reachable or not. -/
  | keepAlways
  /-- Still under construction, and kept for as long. -/
  | async
  /-- The first stage of destruction has been routed. -/
  | beginDestroyed
  /-- The last stage of destruction has been routed. -/
  | finishDestroyed
  /-- A keep flag for callers, honoured by the collections it is passed to. -/
  | standalone
  /-- A second keep flag for callers. -/
  | transient
deriving DecidableEq

namespace Flag

def bit : Flag → Nat
  | unreachable => 0
  | pendingKill => 1
  | rootSet => 2
  | clusterRoot => 3
  | reachableInCluster => 4
  | noStrongReference => 5
  | keepAlways => 6
  | async => 7
  | beginDestroyed => 8
  | finishDestroyed => 9
  | standalone => 16
  | transient => 17

def name : Flag → String
  | unreachable => "UNREACHABLE"
  | pendingKill => "PENDING_KILL"
  | rootSet => "ROOT_SET"
  | clusterRoot => "CLUSTER_ROOT"
  | reachableInCluster => "REACHABLE_IN_CLUSTER"
  | noStrongReference => "NO_STRONG_REFERENCE"
  | keepAlways => "KEEP_ALWAYS"
  | async => "ASYNC"
  | beginDestroyed => "BEGIN_DESTROYED"
  | finishDestroyed => "FINISH_DESTROYED"
  | standalone => "STANDALONE"
  | transient => "TRANSIENT"

def all : List Flag :=
  [unreachable, pendingKill, rootSet, clusterRoot, reachableInCluster, noStrongReference,
    keepAlways, async, beginDestroyed, finishDestroyed, standalone, transient]

theorem bit_lt (f : Flag) : f.bit < 32 := by
  cases f <;> decide

end Flag

/-- A set of flags, as a word. -/
structure Flags where
  bits : BitVec 32
deriving DecidableEq

namespace Flags

def empty : Flags := ⟨0#32⟩

def ofNat (n : Nat) : Flags := ⟨BitVec.ofNat 32 n⟩

def toNat (s : Flags) : Nat := s.bits.toNat

def single (f : Flag) : Flags := ⟨BitVec.twoPow 32 f.bit⟩

def union (a b : Flags) : Flags := ⟨a.bits ||| b.bits⟩

def has (s : Flags) (f : Flag) : Bool := s.bits.getLsbD f.bit

def contains (s m : Flags) : Bool := s.bits &&& m.bits == m.bits

def intersects (s m : Flags) : Bool := s.bits &&& m.bits != 0#32

def insert (s m : Flags) : Flags := ⟨s.bits ||| m.bits⟩

def remove (s m : Flags) : Flags := ⟨s.bits &&& ~~~m.bits⟩

def set (s : Flags) (f : Flag) : Flags := s.insert (single f)

def clear (s : Flags) (f : Flag) : Flags := s.remove (single f)

/-- Clears the flags of `m` and tells whether this changed the word. -/
def tryClear (s m : Flags) : Bool × Flags := (s.intersects m, s.remove m)

def tryInsert (s m : Flags) : Bool × Flags := (!s.contains m, s.insert m)

/-- The flags that keep an object alive in every collection. -/
def keep : Flags := (single .keepAlways).union (single .async)

/-- The flags of an object that must not be referenced any more. -/
def condemned : Flags := (single .unreachable).union (single .beginDestroyed)

/-- The flags of an object that cannot join a cluster. -/
def doomed : Flags := (single .unreachable).union (single .pendingKill)

def unnamed (s : Flags) : Flags :=
  Flag.all.foldl (fun rest f => rest.remove (single f)) s

/-- The names of the flags set, then the unnamed bits as one hexadecimal number. -/
def debugText (s : Flags) : String :=
  let named := (Flag.all.filter s.has).map Flag.name
  let rest := s.unnamed.toNat
  let hex := "0x" ++ String.ofList (Nat.toDigits 16 rest)
  let parts := if rest = 0 then (if named.isEmpty then [hex] else named) else named ++ [hex]
  "ObjectFlags(" ++ " | ".intercalate parts ++ ")"

@[simp] theorem has_single (f g : Flag) : (single f).has g = decide (f = g) := by
  cases f <;> cases g <;> decide

@[simp] theorem has_empty (f : Flag) : empty.has f = false := by
  simp [empty, has]

@[simp] theorem has_insert (s m : Flags) (f : Flag) : (s.insert m).has f = (s.has f || m.has f) := by
  simp [insert, has]

@[simp] theorem has_remove (s m : Flags) (f : Flag) : (s.remove m).has f = (s.has f && !m.has f) := by
  simp [remove, has, f.bit_lt]

@[simp] theorem has_set (s : Flags) (f g : Flag) :
    (s.set f).has g = (s.has g || decide (f = g)) := by
  simp [set]

@[simp] theorem has_clear (s : Flags) (f g : Flag) :
    (s.clear f).has g = (s.has g && !decide (f = g)) := by
  simp [clear]

end Flags

end TracingHeap
