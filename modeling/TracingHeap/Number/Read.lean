namespace TracingHeap

def digitValue? (c : Char) : Option Nat :=
  if '0' ≤ c ∧ c ≤ '9' then some (c.toNat - 48) else none

def readDigits? : List Char → Option Nat
  | [] => none
  | cs => cs.foldlM (fun n c => do return 10 * n + (← digitValue? c)) 0

def dropPlus : List Char → List Char
  | '+' :: rest => rest
  | cs => cs

def readBelow? (limit : Nat) (s : String) : Option Nat := do
  let n ← readDigits? (dropPlus s.toList)
  if n < limit then some n else none

def readBool? (s : String) : Option Bool :=
  if s = "true" then some true else if s = "false" then some false else none

def spanDigits (cs : List Char) : List Char × List Char :=
  cs.span fun c => (digitValue? c).isSome

/-- A sign in front, if there is one; the first part tells whether it is a minus. -/
def splitSign : List Char → Bool × List Char
  | '-' :: rest => (true, rest)
  | '+' :: rest => (false, rest)
  | cs => (false, cs)

def readExponent? : List Char → Option Int
  | [] => some 0
  | c :: rest =>
    if c = 'e' ∨ c = 'E' then do
      let (negative, digits) := splitSign rest
      let n ← readDigits? digits
      return if negative then -(n : Int) else n
    else none

/-- The number nearest to `digits * 10 ^ exponent`. Exponents beyond the range of every number
give zero or infinity at once. -/
def nearestFloat (digits : Nat) (exponent : Int) : Float :=
  let size : Int := exponent + (toString digits).length
  if digits = 0 ∨ size < -400 then 0.0
  else if 400 < size then 1.0 / 0.0
  else Float.ofScientific digits (exponent < 0) exponent.natAbs

/-- A number without a sign: digits with a point among them or beside them, and an exponent. -/
def readMagnitude? (cs : List Char) : Option Float := do
  let (whole, rest) := spanDigits cs
  let (part, rest) := match rest with
    | '.' :: rest => spanDigits rest
    | rest => ([], rest)
  let digits ← readDigits? (whole ++ part)
  let exponent ← readExponent? rest
  return nearestFloat digits (exponent - part.length)

def readNamed? (cs : List Char) : Option Float :=
  let name := String.ofList (cs.map Char.toLower)
  if name = "nan" then some (0.0 / 0.0)
  else if name = "inf" ∨ name = "infinity" then some (1.0 / 0.0)
  else none

def readFloat? (s : String) : Option Float := do
  let (negative, cs) := splitSign s.toList
  let x ← (readMagnitude? cs).or (readNamed? cs)
  return if negative then -x else x

end TracingHeap
