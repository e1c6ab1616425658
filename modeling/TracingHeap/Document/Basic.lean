namespace TracingHeap

/-- Nested lists and records of plain values, as a settings file holds them. -/
inductive Document where
  | null
  | boolean (b : Bool)
  /-- A whole number that is not negative. -/
  | natural (n : Nat)
  /-- The whole number `-n`, where `n` is not zero. -/
  | negative (n : Nat)
  /-- A number with a point or an exponent, or one too great for the other kinds. -/
  | decimal (x : Float)
  | text (s : String)
  | list (items : List Document)
  | record (fields : List (String × Document))

namespace Document

/-- The value of a key. Of two fields with one key the later counts. -/
def field? : Document → String → Option Document
  | .record fields, key => fields.reverse.lookup key
  | _, _ => none

def below? (limit : Nat) : Document → Option Nat
  | .natural n => if n < limit then some n else none
  | _ => none

def boolean? : Document → Option Bool
  | .boolean b => some b
  | _ => none

def text? : Document → Option String
  | .text s => some s
  | _ => none

/-- A number; a whole number is rounded to the nearest one. -/
def decimal? : Document → Option Float
  | .natural n => some (n.toUInt64.toFloat)
  | .negative n => some (-n.toUInt64.toFloat)
  | .decimal x => some x
  | _ => none

def nullable? {α : Type} (reader : Document → Option α) : Document → Option (Option α)
  | .null => some none
  | d => (reader d).map some

end Document

end TracingHeap
