import TracingHeap.Document.Basic
import TracingHeap.Error
import TracingHeap.Number.Read

namespace TracingHeap.Document

/-- The digits of a number so far, as `word * 10 ^ exponent`. A full word takes no more digits: of those
before the point only the number counts. -/
structure Significand where
  word : Nat
  exponent : Int
  full : Bool

namespace Significand

/-- Takes in a digit; `place` is what the digit adds to the exponent if it fits. -/
def push (s : Significand) (place : Int) (digit : Nat) : Significand :=
  let word := 10 * s.word + digit
  if !s.full && word < sizeLimit then { s with word, exponent := s.exponent + place }
  else { s with exponent := s.exponent + place + 1, full := true }

def whole (digits : List Nat) : Significand := digits.foldl (·.push 0 ·) ⟨0, 0, false⟩

/-- The digits behind the point. The word may take some of them again. -/
def part (s : Significand) (digits : List Nat) : Significand :=
  digits.foldl (·.push (-1) ·) { s with full := false }

/-- Multiplies by a power of ten. Nothing if the number becomes too great. -/
def scale (x : Float) (exponent : Int) : Option Float :=
  let power (n : Nat) : Float := Float.ofScientific 1 false n
  if 0 ≤ exponent then
    if exponent ≤ 308 then
      let y := x * power exponent.toNat
      if y.isInf then none else some y
    else if x == 0.0 then some x else none
  else go x (-exponent).toNat ((-exponent).toNat / 308 + 1)
where
  /-- Divides by a power of ten, in steps that are powers themselves. -/
  go (x : Float) (n : Nat) : Nat → Option Float
    | 0 => some x
    | fuel + 1 =>
      if n ≤ 308 then some (x / Float.ofScientific 1 false n)
      else if x == 0.0 then some x
      else go (x / Float.ofScientific 1 false 308) (n - 308) fuel

def toFloat? (s : Significand) : Option Float := scale s.word.toUInt64.toFloat s.exponent

end Significand

def exponentLimit : Nat := 2147483648

def scaled? (s : Significand) (negative : Bool) (digits : List Nat) : Option Float :=
  let n := digits.foldl (fun n d => 10 * n + d) 0
  if exponentLimit ≤ n then if s.word ≠ 0 ∧ !negative then none else some 0.0
  else { s with exponent := s.exponent + (if negative then -(n : Int) else n) }.toFloat?

def digitsOf (cs : List Char) : List Nat × List Char :=
  let (digits, rest) := spanDigits cs
  (digits.filterMap digitValue?, rest)

def readScale (negative : Bool) (s : Significand) (cs : List Char) :
    Option (Document × List Char) := do
  let signed (x : Float) : Document := .decimal (if negative then -x else x)
  let (point, s, rest) ← match cs with
    | '.' :: rest =>
      let (digits, rest) := digitsOf rest
      if digits.isEmpty then none else some (true, s.part digits, rest)
    | rest => some (false, s, rest)
  match rest with
  | c :: rest =>
    if c = 'e' ∨ c = 'E' then
      let (below, rest) := splitSign rest
      let (digits, rest) := digitsOf rest
      if digits.isEmpty then none else return (signed (← scaled? s below digits), rest)
    else plain point s signed (c :: rest)
  | [] => plain point s signed []
where
  /-- A number without an exponent. -/
  plain (point : Bool) (s : Significand) (signed : Float → Document) (rest : List Char) :
      Option (Document × List Char) :=
    if point ∨ s.full then do return (signed (← s.toFloat?), rest)
    else if !negative then some (.natural s.word, rest)
    else if s.word = 0 ∨ sizeLimit / 2 < s.word then some (signed s.word.toUInt64.toFloat, rest)
    else some (.negative s.word, rest)

/-- Reads a number. No digit may follow a zero in front. -/
def readNumber (cs : List Char) : Option (Document × List Char) :=
  let (minus, cs) := match cs with
    | '-' :: rest => (true, rest)
    | rest => (false, rest)
  match digitsOf cs with
  | ([], _) => none
  | (0 :: _ :: _, _) => none
  | (digits, rest) => readScale minus (.whole digits) rest

end TracingHeap.Document
