import TracingHeap.Document.Number
import TracingHeap.Document.Text

namespace TracingHeap.Document

def isBlank (c : Char) : Bool := c == ' ' || c == '\n' || c == '\t' || c == '\r'

def skipBlank (cs : List Char) : List Char := cs.dropWhile isBlank

def readWord (word : String) (d : Document) (cs : List Char) : Option (Document × List Char) :=
  if word.toList.isPrefixOf cs then some (d, cs.drop word.length) else none

def readKey (cs : List Char) : Option (String × List Char) :=
  match skipBlank cs with
  | '"' :: rest =>
    match readText [] rest with
    | none => none
    | some (key, rest) =>
      match skipBlank rest with
      | ':' :: rest => some (key, rest)
      | _ => none
  | _ => none

mutual

def readValue : Nat → List Char → Option (Document × List Char)
  | 0, _ => none
  | fuel + 1, cs =>
    match skipBlank cs with
    | '"' :: rest => (readText [] rest).map fun (s, rest) => (.text s, rest)
    | '[' :: rest =>
      match skipBlank rest with
      | ']' :: rest => some (.list [], rest)
      | rest => (readItems fuel rest).map fun (ds, rest) => (.list ds, rest)
    | '\x7b' :: rest =>
      match skipBlank rest with
      | '\x7d' :: rest => some (.record [], rest)
      | rest => (readFields fuel rest).map fun (fs, rest) => (.record fs, rest)
    | 't' :: rest => readWord "rue" (.boolean true) rest
    | 'f' :: rest => readWord "alse" (.boolean false) rest
    | 'n' :: rest => readWord "ull" .null rest
    | cs => readNumber cs

/-- The items of a list up to its end; there is at least one. -/
def readItems : Nat → List Char → Option (List Document × List Char)
  | 0, _ => none
  | fuel + 1, cs => do
    let (d, rest) ← readValue fuel cs
    match skipBlank rest with
    | ']' :: rest => return ([d], rest)
    | ',' :: rest =>
      let (ds, rest) ← readItems fuel rest
      return (d :: ds, rest)
    | _ => none

def readFields : Nat → List Char → Option (List (String × Document) × List Char)
  | 0, _ => none
  | fuel + 1, cs => do
    let (key, rest) ← readKey cs
    let (d, rest) ← readValue fuel rest
    match skipBlank rest with
    | '\x7d' :: rest => return ([(key, d)], rest)
    | ',' :: rest =>
      let (fs, rest) ← readFields fuel rest
      return ((key, d) :: fs, rest)
    | _ => none

end

/-- Reads a document; nothing may stand around it but blanks. Each value uses up at least one character, so
the length of the text bounds how deep values lie in each other. -/
def read? (s : String) : Option Document :=
  let cs := s.toList
  match readValue (2 * cs.length + 2) cs with
  | some (d, rest) => if (skipBlank rest).isEmpty then some d else none
  | none => none

end TracingHeap.Document
