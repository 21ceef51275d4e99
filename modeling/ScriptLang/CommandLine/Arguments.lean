/-!
# Command-line arguments

Flags may stand before and after what they belong to, `--` ends them, and no flag may be given twice at one place.
`--log` belongs to the program and to every command, `--json` to one command only.  A file name must not be empty.
Behind `help` may stand the one command that it is about.
-/

namespace ScriptLang.CommandLine

/-- What the program can be asked to do with a file, if one is named. -/
inductive Command
  | tokenize (file : Option String) (json : Bool)
  | parse (file : Option String)
  | run (file : Option String)
  | repl
deriving DecidableEq, Repr

/-- What arguments ask for. -/
inductive Request
  | command (command : Command) (log : Bool)
  | version
  | help
  /-- The arguments are not understood. -/
  | usage
deriving DecidableEq, Repr

/-- The flags and names behind a command. -/
structure Rest where
  log : Bool
  json : Bool
  names : List String
  help : Bool
deriving DecidableEq, Repr

/-- Whether an argument is meant as a flag; a single dash is a name. -/
def isFlag (a : String) : Bool := a.startsWith "-" && a ≠ "-"

/-- Reads the arguments behind a command that takes so many names, and `--json` or not.  A request for help ends the
reading. -/
def readRest (maxNames : Nat) (takesJson : Bool) : (flags : Bool) → Rest → List String → Option Rest
  | _, r, [] => some r
  | flags, r, a :: args =>
    if flags && a = "--" then readRest maxNames takesJson false r args
    else if flags && a = "--log" then
      if r.log then none else readRest maxNames takesJson flags { r with log := true } args
    else if flags && takesJson && a = "--json" then
      if r.json then none else readRest maxNames takesJson flags { r with json := true } args
    else if flags && (a = "--help" || a.startsWith "-h") then some { r with help := true }
    else if flags && isFlag a then none
    else if a.isEmpty || maxNames ≤ r.names.length then none
    else readRest maxNames takesJson flags { r with names := r.names ++ [a] } args

/-- The request that a command and the arguments behind it make. -/
def request (log : Bool) (maxNames : Nat) (takesJson : Bool) (command : Rest → Command) (args : List String) :
    Request :=
  match readRest maxNames takesJson true ⟨false, false, [], false⟩ args with
  | none => .usage
  | some r => if r.help then .help else .command (command r) (log || r.log)

/-- What help can be asked for. -/
def helpTopics : List String := ["tokenize", "parse", "run", "repl", "help"]

/-- The request that `help` and the arguments behind it make: none of them is a flag, and no topic has topics of its
own. -/
def helpRequest : List String → Request
  | [] => .help
  | [topic] => if topic ∈ helpTopics then .help else .usage
  | _ => .usage

/-- The request that arguments make. -/
def Request.ofArguments (log : Bool) : List String → Request
  | [] => .usage
  | a :: args =>
    if a = "--log" then if log then .usage else Request.ofArguments true args
    else if a = "--version" || a.startsWith "-V" then .version
    else if a = "--help" || a.startsWith "-h" then .help
    else if a = "help" then helpRequest args
    else if a = "tokenize" then request log 1 true (fun r => .tokenize r.names.head? r.json) args
    else if a = "parse" then request log 1 false (fun r => .parse r.names.head?) args
    else if a = "run" then request log 1 false (fun r => .run r.names.head?) args
    else if a = "repl" then request log 0 false (fun _ => .repl) args
    else .usage

end ScriptLang.CommandLine
