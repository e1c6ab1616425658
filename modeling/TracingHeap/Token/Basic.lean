import TracingHeap.Schema.Collector

namespace TracingHeap

/-- An instruction for reading an object. An array token opens a scope that ends at a return token; its
`skip` is the index of the token after that return. -/
inductive Token where
  | reference (offset : Nat) (s : Strength)
  | references (offset : Nat) (s : Strength)
  /-- `count` elements, `stride` cells apart, each read by the tokens of the scope. -/
  | fixed (offset stride count skip : Nat)
  /-- The elements of a struct array, each read by the tokens of the scope. -/
  | structs (offset skip : Nat)
  | container (offset : Nat) (collector : CellCollector)
  | object (collector : ObjectCollector)
  | ret
  | stop

structure Origin where
  className : String
  field : String
  offset : Nat
deriving DecidableEq

structure Entry where
  token : Token
  origin : Origin

structure TokenStream where
  entries : Array Entry

namespace Token

def isStop : Token → Bool
  | stop => true
  | _ => false

def isObject : Token → Bool
  | object _ => true
  | _ => false

end Token

namespace TokenStream

def token? (ts : TokenStream) (i : Nat) : Option Token := ts.entries[i]?.map (·.token)

def origin? (ts : TokenStream) (i : Nat) : Option Origin := ts.entries[i]?.map (·.origin)

def size (ts : TokenStream) : Nat := ts.entries.size

def isTrivial (ts : TokenStream) : Bool := ts.entries.all (·.token.isStop)

/-- Where the token at an index comes from, for messages. -/
def describe (ts : TokenStream) (i : Nat) : String :=
  match ts.origin? i with
  | some o =>
    "class: " ++ o.className ++ ", field: " ++ o.field ++ ", offset: " ++ toString o.offset
      ++ ", token: " ++ toString i
  | none => "token: " ++ toString i

end TokenStream

end TracingHeap
