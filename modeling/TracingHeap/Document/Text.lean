namespace TracingHeap.Document

def hexValue? (c : Char) : Option Nat :=
  if '0' ≤ c ∧ c ≤ '9' then some (c.toNat - 48)
  else if 'a' ≤ c ∧ c ≤ 'f' then some (c.toNat - 87)
  else if 'A' ≤ c ∧ c ≤ 'F' then some (c.toNat - 55)
  else none

def hexWord? (a b c d : Char) : Option Nat := do
  return (((← hexValue? a) * 16 + (← hexValue? b)) * 16 + (← hexValue? c)) * 16 + (← hexValue? d)

/-- The first of the two words of a pair. -/
def isLeading (w : Nat) : Bool := 0xD800 ≤ w && w < 0xDC00

def isTrailing (w : Nat) : Bool := 0xDC00 ≤ w && w < 0xE000

def escaped? : Char → Option Char
  | '"' => some '"'
  | '\\' => some '\\'
  | '/' => some '/'
  | 'b' => some '\x08'
  | 'f' => some '\x0c'
  | 'n' => some '\n'
  | 'r' => some '\r'
  | 't' => some '\t'
  | _ => none

/-- Reads up to the closing quote, with the characters so far in reverse. A character beyond
16 bits is written as a pair of words, and neither word may stand alone. -/
def readText (done : List Char) : List Char → Option (String × List Char)
  | '"' :: rest => some (String.ofList done.reverse, rest)
  | '\\' :: 'u' :: a :: b :: c :: d :: '\\' :: 'u' :: e :: f :: g :: h :: rest =>
    match hexWord? a b c d with
    | none => none
    | some w =>
      if isLeading w then
        match hexWord? e f g h with
        | none => none
        | some v =>
          if isTrailing v then
            readText (Char.ofNat (0x10000 + (w - 0xD800) * 0x400 + (v - 0xDC00)) :: done) rest
          else none
      else if isTrailing w then none
      else readText (Char.ofNat w :: done) ('\\' :: 'u' :: e :: f :: g :: h :: rest)
  | '\\' :: 'u' :: a :: b :: c :: d :: rest =>
    match hexWord? a b c d with
    | none => none
    | some w =>
      if isLeading w || isTrailing w then none else readText (Char.ofNat w :: done) rest
  | '\\' :: c :: rest =>
    match escaped? c with
    | none => none
    | some x => readText (x :: done) rest
  | c :: rest => if c.toNat < 32 ∨ c = '\\' then none else readText (c :: done) rest
  | [] => none
termination_by cs => cs.length

end TracingHeap.Document
