import TracingHeap.Command.Options

namespace TracingHeap.Command

inductive Refusal where
  | unexpected (argument : String)
  | repeated (option : String)
  | missingValue (option : String)
  | badValue (value option : String)
  | noCommand
deriving DecidableEq

def Refusal.message : Refusal → String
  | unexpected s => "unexpected argument '" ++ s ++ "' found"
  | repeated s => "the argument '--" ++ s ++ "' cannot be used multiple times"
  | missingValue s => "a value is required for '--" ++ s ++ "' but none was supplied"
  | badValue v s => "invalid value '" ++ v ++ "' for '--" ++ s ++ "'"
  | noCommand => "a command is required but none was provided"

inductive Topic where
  | program
  | command (name : Name)
  /-- The command that shows help. -/
  | help
  | version
deriving DecidableEq

/-- Why the reading of arguments ends early. -/
inductive Stop where
  | tell (topic : Topic)
  | refuse (r : Refusal)
deriving DecidableEq

/-- The options given at one level, with their values; a switch has an empty one. -/
abbrev Given := List (String × String)

/-- What can be given at a level. -/
structure Level where
  options : List OptionSpec
  topic : Topic
  hasVersion : Bool

def Level.program : Level := ⟨sharedOptions, .program, true⟩

def Level.command (name : Name) : Level := ⟨sharedOptions ++ name.options, .command name, false⟩

def Given.add (o : OptionSpec) (value : String) (given : Given) : Except Stop Given :=
  if (given.lookup o.long).isSome then .error (.refuse (.repeated o.long))
  else if o.value.all (·.accepts value) then .ok ((o.long, value) :: given)
  else .error (.refuse (.badValue value o.long))

structure Reading where
  given : Given
  /-- The last option, if its value has not been looked at yet. -/
  waiting : Option (OptionSpec × String)

namespace Reading

def start : Reading := ⟨[], none⟩

/-- The options given, after a look at the value that waits for it. -/
def settle (r : Reading) : Except Stop Given :=
  match r.waiting with
  | none => .ok r.given
  | some (o, value) => Given.add o value r.given

def add (o : OptionSpec) (value : String) (r : Reading) : Except Stop Reading := do
  let given ← r.settle
  return ⟨← Given.add o value given, none⟩

/-- Adds an option whose value is still to be looked at. -/
def await (o : OptionSpec) (value : String) (r : Reading) : Except Stop Reading := do
  return ⟨← r.settle, some (o, value)⟩

def stop {α : Type} (topic : Topic) (r : Reading) : Except Stop α := do
  let _ ← r.settle
  throw (.tell topic)

end Reading

namespace Level

inductive Demand where
  /-- Nothing more. -/
  | done (r : Reading)
  /-- The value of an option is the next argument. -/
  | valueOf (o : OptionSpec) (r : Reading)

/-- Reads an option by its long name, with a value behind an equals sign if there is one. -/
def readLong (l : Level) (name : String) (value : Option String) (r : Reading) :
    Except Stop Demand :=
  let unexpected : Except Stop Demand := .error (.refuse (.unexpected ("--" ++ name)))
  match l.options.find? (·.long == name), value with
  | some o, none => match o.value with
    | none => (r.add o "").map .done
    | some _ => .ok (.valueOf o r)
  | some o, some v => match o.value with
    | none => unexpected
    | some _ => (r.add o v).map .done
  | none, some _ => unexpected
  | none, none =>
    if name = "help" then r.stop l.topic
    else if name = "version" ∧ l.hasVersion then r.stop .version
    else unexpected

/-- Reads a row of short names. What stands behind an option that takes a value is its value. -/
def readShort (l : Level) : List Char → Reading → Except Stop Demand
  | [], r => .ok (.done r)
  | c :: rest, r =>
    match l.options.find? (·.short == some c) with
    | some o =>
      match o.value, rest with
      | none, _ => do l.readShort rest (← r.add o "")
      | some _, [] => .ok (.valueOf o r)
      | some _, '=' :: value => (r.add o (String.ofList value)).map .done
      | some _, value => (r.add o (String.ofList value)).map .done
    | none =>
      if c = 'h' then r.stop l.topic
      else if c = 'V' ∧ l.hasVersion then r.stop .version
      else .error (.refuse (.unexpected (String.ofList ['-', c])))

/-- Whether an argument cannot be the value of the option before it. -/
def isOption (s : String) : Bool :=
  match s.toList with
  | '-' :: _ :: _ => true
  | _ => false

def splitValue (cs : List Char) : String × Option String :=
  match cs.span (· != '=') with
  | (name, _ :: value) => (String.ofList name, some (String.ofList value))
  | (name, []) => (String.ofList name, none)

/-- What comes after the options of a level. -/
inductive Ending where
  | last
  /-- An argument that is no option, and the arguments behind it. -/
  | word (s : String) (rest : List String)

/-- Reads the options of a level; each may be given once. A value that is an argument of its own is looked at
late: when the next option comes, or at the end of all arguments. So help that is asked for behind a
command is shown even if the value in front of the command is wrong. -/
def read (l : Level) : List String → Reading → Except Stop (Reading × Ending)
  | [], r => .ok (r, .last)
  | s :: rest, r =>
    let demand : Option (Except Stop Demand) := match s.toList with
      | '-' :: '-' :: name =>
        let (name, value) := splitValue name
        some (l.readLong name value r)
      | '-' :: c :: cs => some (l.readShort (c :: cs) r)
      | _ => none
    if s = "--" then
      match rest with
      | [] => .ok (r, .last)
      | t :: _ => .error (.refuse (.unexpected t))
    else match demand with
      | none => .ok (r, .word s rest)
      | some (.error stop) => .error stop
      | some (.ok (.done r)) => l.read rest r
      | some (.ok (.valueOf o r)) =>
        match rest with
        | [] => .error (.refuse (.missingValue o.long))
        | value :: rest =>
          if isOption value then .error (.refuse (.missingValue o.long))
          else match r.await o value with
            | .error stop => .error stop
            | .ok r => l.read rest r

end Level

inductive Task where
  | stress (budget : Option Float)
  | bench (iterations : Nat)

structure Invocation where
  task : Task
  graph : GraphSpec
  config : Option String
  workers : Option Nat
  singleThreaded : Bool
  verbose : Bool

def helpTopic : List String → Stop
  | [] => .tell .program
  | [s] =>
    match Name.ofText? s with
    | some name => .tell (.command name)
    | none => if s = "help" then .tell .help else .refuse (.unexpected s)
  | _ :: s :: _ => .refuse (.unexpected s)

def sizeOf (given : Given) (name : String) (absent : Nat) : Nat :=
  ((given.lookup name).bind (readBelow? sizeLimit)).getD absent

/-- The invocation of a command with some options, those of the command first. -/
def invocation (name : Name) (given : Given) : Invocation where
  task := match name with
    | .stress => .stress ((given.lookup "purge-budget-ms").bind readFloat?)
    | .bench => .bench (sizeOf given "iterations" 10)
  graph := {
    objects := sizeOf given "objects" GraphSpec.default.objects
    fanOut := sizeOf given "fan-out" GraphSpec.default.fanOut
    roots := sizeOf given "roots" GraphSpec.default.roots
    clusters := sizeOf given "clusters" GraphSpec.default.clusters
    clusterSize := sizeOf given "cluster-size" GraphSpec.default.clusterSize
    seed := UInt64.ofNat (sizeOf given "seed" GraphSpec.default.seed.toNat) }
  config := given.lookup "config"
  workers := (given.lookup "workers").bind (readBelow? sizeLimit)
  singleThreaded := (given.lookup "single-threaded").isSome
  verbose := (given.lookup "verbose").isSome

/-- Reads the arguments. An option behind the command counts more than one in front of it. -/
def read (arguments : List String) : Except Stop Invocation := do
  let (r, ending) ← Level.program.read arguments .start
  match ending with
  | .last =>
    let _ ← r.settle
    throw (.refuse .noCommand)
  | .word s rest =>
    match Name.ofText? s with
    | none => throw (if s = "help" then helpTopic rest else .refuse (.unexpected s))
    | some name =>
      let (own, ending) ← (Level.command name).read rest .start
      match ending with
      | .word t _ => throw (.refuse (.unexpected t))
      | .last =>
        let own ← own.settle
        let shared ← r.settle
        return invocation name (own ++ shared)

end TracingHeap.Command
