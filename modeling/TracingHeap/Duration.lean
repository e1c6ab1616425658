import TracingHeap.Error
import TracingHeap.Number.Text

namespace TracingHeap

/-- A span of time in nanoseconds. Its seconds fit in 64 bits. -/
structure Duration where
  nanos : Nat
deriving DecidableEq

namespace Duration

def zero : Duration := ⟨0⟩

def second : Nat := 1000000000

/-- The number of nanoseconds that is too great for a span. -/
def limit : Nat := sizeLimit * second

def ofParts (seconds nanos : Nat) : Except Fault Duration :=
  let n := seconds * second + nanos
  if n < limit then .ok ⟨n⟩ else .error .durationCarry

def seconds (d : Duration) : Nat := d.nanos / second

def subsec (d : Duration) : Nat := d.nanos % second

def sum (ds : List Duration) : Except Fault Duration :=
  let n := ds.foldl (fun n d => n + d.nanos) 0
  if n < limit then .ok ⟨n⟩ else .error .durationSum

def toFloat (d : Duration) : Float :=
  d.seconds.toUInt64.toFloat + d.subsec.toUInt64.toFloat / second.toUInt64.toFloat

/-- The span of a number of seconds, to the nearest nanosecond. -/
def ofFloat (x : Float) : Except Fault Duration :=
  match Dyadic.ofFloat? x with
  | none => .error (if x < 0.0 then .durationNegative else .durationRange)
  | some d =>
    let (n, m) := d.fraction
    if d.negative && d.mantissa != 0 then .error .durationNegative
    else if sizeLimit * m ≤ n then .error .durationRange
    else .ok ⟨roundHalfEven (n * second) m⟩

/-- A whole number of units and the part of a unit that is left over, without zeros at the end. -/
def unitText (whole part places : Nat) (unit : String) : String :=
  if part = 0 then toString whole ++ unit
  else
    let d := (Decimal.mk (whole * tenTo places + part) (-(places : Int))).stripZeros places
    d.plainText ++ unit

/-- A span in the greatest unit of which it has at least one. -/
def text (d : Duration) : String :=
  if second ≤ d.nanos then unitText d.seconds d.subsec 9 "s"
  else if 1000000 ≤ d.nanos then unitText (d.nanos / 1000000) (d.nanos % 1000000) 6 "ms"
  else if 1000 ≤ d.nanos then unitText (d.nanos / 1000) (d.nanos % 1000) 3 "µs"
  else unitText d.nanos 0 0 "ns"

end Duration

end TracingHeap
