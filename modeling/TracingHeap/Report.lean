namespace TracingHeap

inductive Piece where
  | plain (s : String)
  /-- What comes from measuring time. -/
  | measured (s : String)
  /-- What depends on how parallel tasks come to run. -/
  | scheduled (s : String)
deriving DecidableEq

def Piece.text : Piece → String
  | plain s | measured s | scheduled s => s

structure Line where
  pieces : List Piece
deriving DecidableEq

namespace Line

def plain (s : String) : Line := ⟨[.plain s]⟩

def textBy (shown : Piece → String) (l : Line) : String := String.join (l.pieces.map shown)

def text (l : Line) : String := l.textBy Piece.text

end Line

def padRight (width : Nat) (s : String) : String := s ++ "".pushn ' ' (width - s.length)

def padLeft (width : Nat) (s : String) : String := "".pushn ' ' (width - s.length) ++ s

end TracingHeap
