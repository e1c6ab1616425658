import TracingHeap.Command.Arguments
import TracingHeap.Report

namespace TracingHeap.Command

namespace OptionSpec

def longText (o : OptionSpec) : String :=
  "--" ++ o.long ++ (if o.value.isSome then
    " <" ++ String.ofList (o.long.toList.map fun c => if c = '-' then '_' else c.toUpper) ++ ">"
  else "")

def text (o : OptionSpec) : String :=
  (match o.short with
    | some c => "-" ++ String.ofList [c] ++ ", "
    | none => "    ") ++ o.longText

def key (o : OptionSpec) : String :=
  match o.short with
  | some c => String.ofList [c, '0']
  | none => o.long

end OptionSpec

def helpOption : OptionSpec := ⟨"help", some 'h', none, "Print help"⟩

def versionOption : OptionSpec := ⟨"version", some 'V', none, "Print version"⟩

/-- Two lists of options as one, turn by turn; of two with the same rank the one with the lesser
key comes first. -/
def merge : List OptionSpec → List OptionSpec → List OptionSpec
  | a :: as, b :: bs => (if a.key < b.key then [a, b] else [b, a]) ++ merge as bs
  | [], bs => bs
  | as, [] => as

/-- The options of a command as the help lists them. Its own options take the places from zero on,
and the shared ones the places from the number of commands on. -/
def arrange (own shared : List OptionSpec) : List OptionSpec :=
  let n := Name.all.length
  own.take n ++ merge (own.drop n) shared

def pageWidth : Nat := 100

def nameWidth (options : List OptionSpec) : Nat := (options.map (·.text.length)).foldl max 0 + 4

/-- Whether the names leave too little of the page for the help beside them: they take more than
two fifths of it, and some help is longer than the rest. -/
def isCrowded (options : List OptionSpec) : Bool :=
  let width := nameWidth options
  decide (2 * pageWidth < 5 * width)
    && options.any fun o => decide (pageWidth < width + o.help.length)

def columns (options : List OptionSpec) : List String :=
  options.map fun o => padRight (nameWidth options) ("  " ++ o.text) ++ o.help

def paragraphs (options : List OptionSpec) : List String :=
  options.flatMap fun o => ["  " ++ o.text, "".pushn ' ' 10 ++ o.help]

def optionLines (options : List OptionSpec) : List String :=
  if isCrowded options then paragraphs options else columns options

def programText : List String :=
  ["Drive the reclaim garbage collector over synthetic object graphs", "",
    "Usage: reclaim [OPTIONS] <COMMAND>", "",
    "Commands:",
    "  stress  " ++ Name.stress.about,
    "  bench   " ++ Name.bench.about,
    "  help    Print this message or the help of the given subcommand(s)", "",
    "Options:"] ++ optionLines (sharedOptions ++ [helpOption, versionOption])

def commandText (name : Name) : List String :=
  [name.about, "", "Usage: reclaim " ++ name.text ++ " [OPTIONS]", "", "Options:"]
    ++ optionLines (arrange name.options sharedOptions ++ [helpOption])

def Topic.text : Topic → List String
  | program => programText
  | command name => commandText name
  | help =>
    ["Print this message or the help of the given subcommand(s)", "",
      "Usage: reclaim help [COMMAND]...", "",
      "Arguments:", "  [COMMAND]...  Print help for the subcommand(s)"]
  | version => ["reclaim 0.1.0"]

end TracingHeap.Command
