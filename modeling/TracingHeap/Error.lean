import TracingHeap.Object

namespace TracingHeap

/-- What a call can answer instead of a result. -/
inductive HeapError where
  | unknownClass (id : ClassId)
  | duplicateClass (name : String)
  | invalidHandle (object : Handle)
  | tableExhausted
  | fieldMismatch (object : String) (offset : Nat) (expected : String)
  | missingReferenceDescriptor (className field : String)
  | invalidCluster (object : Handle) (reason : String)
  | rootedPendingKill (object : Handle)
  | corruptReference (target : Nat) (referencing token : String)
  | clusterInvariant (reason : String)
  | purgeProtocol (object : Handle) (missing : String)
  | threadPool (reason : String)
  | badSetting (key value : String)
deriving DecidableEq

namespace HeapError

def label : HeapError → String
  | unknownClass _ => "UnknownClass"
  | duplicateClass _ => "DuplicateClass"
  | invalidHandle _ => "InvalidHandle"
  | tableExhausted => "TableExhausted"
  | fieldMismatch .. => "FieldMismatch"
  | missingReferenceDescriptor .. => "MissingReferenceDescriptor"
  | invalidCluster .. => "InvalidCluster"
  | rootedPendingKill _ => "RootedPendingKill"
  | corruptReference .. => "CorruptReference"
  | clusterInvariant _ => "ClusterInvariant"
  | purgeProtocol .. => "PurgeProtocol"
  | threadPool _ => "ThreadPool"
  | badSetting .. => "Config"

def message : HeapError → String
  | unknownClass id => "unknown class id " ++ id.debugText
  | duplicateClass name => "class `" ++ name ++ "` is already registered"
  | invalidHandle h => "invalid or freed object handle " ++ h.text
  | tableExhausted => "object table is full"
  | fieldMismatch object offset expected =>
    "field " ++ toString offset ++ " of `" ++ object ++ "` is not a " ++ expected
  | missingReferenceDescriptor className field =>
    "field `" ++ field ++ "` of `" ++ className
      ++ "` holds references but has no reference descriptor"
  | invalidCluster h reason => "cannot cluster " ++ h.text ++ ": " ++ reason
  | rootedPendingKill h =>
    "object " ++ h.text ++ " is in the root set and cannot be marked pending kill"
  | corruptReference target referencing token =>
    "invalid object in GC: " ++ toString target ++ ", referencing object: " ++ referencing
      ++ ", " ++ token
  | clusterInvariant reason => "cluster invariant violated: " ++ reason
  | purgeProtocol h missing =>
    "object " ++ h.text ++ " reached the final purge sweep without " ++ missing
  | threadPool reason => "failed to build GC worker pool: " ++ reason
  | badSetting key value => "invalid configuration value for " ++ key ++ ": " ++ value

def recordText (label : String) (parts : List (String × String)) : String :=
  label ++ " \x7b " ++ ", ".intercalate (parts.map fun p => p.1 ++ ": " ++ p.2) ++ " \x7d"

def debugText (e : HeapError) : String :=
  match e with
  | unknownClass id => e.label ++ "(" ++ id.debugText ++ ")"
  | duplicateClass s | clusterInvariant s | threadPool s =>
    e.label ++ "(" ++ Text.quoted s ++ ")"
  | invalidHandle h | rootedPendingKill h => e.label ++ "(" ++ h.debugText ++ ")"
  | tableExhausted => e.label
  | fieldMismatch object offset expected =>
    recordText e.label [("object", Text.quoted object), ("offset", toString offset),
      ("expected", Text.quoted expected)]
  | missingReferenceDescriptor className field =>
    recordText e.label [("class", Text.quoted className), ("field", Text.quoted field)]
  | invalidCluster h reason =>
    recordText e.label [("object", h.debugText), ("reason", Text.quoted reason)]
  | corruptReference target referencing token =>
    recordText e.label [("target", toString target), ("referencing", Text.quoted referencing),
      ("token", Text.quoted token)]
  | purgeProtocol h missing =>
    recordText e.label [("object", h.debugText), ("missing", Text.quoted missing)]
  | badSetting key value =>
    recordText e.label [("key", Text.quoted key), ("value", Text.quoted value)]

end HeapError

/-- An operation on sizes whose result must fit in 64 bits. -/
inductive Arithmetic where
  | add
  | multiply
deriving DecidableEq

/-- What ends the work at hand, because the heap can no longer be trusted or because a number does not
fit. -/
inductive Fault where
  /-- An error after which the heap cannot be used. -/
  | fatal (e : HeapError)
  | alreadyUnreachable (object : Handle)
  /-- A cluster member is flagged although its cluster is intact. -/
  | memberUnreachable (object : Handle)
  | finishedEarly (object : Handle)
  | scratchLeak
  | overflow (op : Arithmetic)
  /-- More would be stored at once than memory has addresses for. -/
  | capacity
  /-- A wave has more batches than there are task outputs. -/
  | taskRange (tasks outputs : Nat)
  | durationSum
  | durationCarry
  | durationNegative
  | durationRange
  /-- An object would be waited for without end. -/
  | stalled
  /-- A bounded loop ran out of its bound. -/
  | exhausted
deriving DecidableEq

namespace Fault

def message : Fault → String
  | fatal e => e.message
  | alreadyUnreachable h => "object " ++ h.text ++ " is already flagged unreachable"
  | memberUnreachable h =>
    "cluster member " ++ h.text ++ " flagged unreachable while its cluster is intact"
  | finishedEarly h => "object " ++ h.text ++ " finished destroying before the purge reached it"
  | scratchLeak => "GC array pool leaked during marking"
  | overflow .add => "attempt to add with overflow"
  | overflow .multiply => "attempt to multiply with overflow"
  | capacity => "capacity overflow"
  | taskRange tasks outputs =>
    "range end index " ++ toString tasks ++ " out of range for slice of length "
      ++ toString outputs
  | durationSum => "overflow in iter::sum over durations"
  | durationCarry => "overflow in Duration::new"
  | durationNegative => "cannot convert float seconds to Duration: value is negative"
  | durationRange => "cannot convert float seconds to Duration: value is either too big or NaN"
  | stalled => "an object never becomes ready for the last stage of destruction"
  | exhausted => "a bounded loop ran out of its bound"

end Fault

/-- Why an operation gave no result: an error for the caller or a fault. -/
inductive Failure where
  | error (e : HeapError)
  | fault (f : Fault)
deriving DecidableEq

namespace Failure

/-- The fault that the failure is where no error can be answered. -/
def toFault : Failure → Fault
  | error e => .fatal e
  | fault f => f

end Failure

def orFault {α : Type} : Except Failure α → Except Fault α
  | .ok a => .ok a
  | .error f => .error f.toFault

/-- One more than the greatest size. -/
def sizeLimit : Nat := 18446744073709551616

/-- The number of bytes that no block of memory has. -/
def memoryLimit : Nat := 9223372036854775808

/-- Refuses a block of memory for `count` items of `size` bytes each if it cannot be addressed. -/
def reserve (count size : Nat) : Except Fault Unit :=
  if count * size < memoryLimit then .ok () else .error .capacity

def addSizes (a b : Nat) : Except Fault Nat :=
  if a + b < sizeLimit then .ok (a + b) else .error (.overflow .add)

def mulSizes (a b : Nat) : Except Fault Nat :=
  if a * b < sizeLimit then .ok (a * b) else .error (.overflow .multiply)

end TracingHeap
