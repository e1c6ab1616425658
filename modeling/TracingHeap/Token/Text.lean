import TracingHeap.Token.Basic

namespace TracingHeap

namespace Token

/-- A token as it is shown inside a value; a token that holds a collector has no text. -/
def debugText? : Token → Option String
  | reference offset s =>
    HeapError.recordText "Reference" [("offset", toString offset), ("kind", s.name)]
  | references offset s =>
    HeapError.recordText "ReferenceArray" [("offset", toString offset), ("kind", s.name)]
  | fixed offset stride count skip =>
    HeapError.recordText "FixedArray"
      [("offset", toString offset), ("stride", toString stride), ("count", toString count),
        ("skip", toString skip)]
  | structs offset skip =>
    HeapError.recordText "StructArray" [("offset", toString offset), ("skip", toString skip)]
  | container .. | object _ => none
  | ret => "Return"
  | stop => "EndOfStream"

end Token

namespace TokenStream

def column (n : Nat) : String :=
  let digits := toString n
  "".pushn ' ' (4 - digits.length) ++ digits

def text? (ts : TokenStream) : Option String := do
  let lines ← (List.range ts.size).mapM fun i => do
    let t ← ts.token? i
    let shown ← t.debugText?
    return column i ++ ": " ++ shown ++ " (" ++ ts.describe i ++ ")\n"
  return String.join lines

end TokenStream

end TracingHeap
