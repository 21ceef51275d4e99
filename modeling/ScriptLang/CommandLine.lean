import ScriptLang.CommandLine.Arguments
import ScriptLang.CommandLine.Files
import ScriptLang.Session
import ScriptLang.Token.Json
import ScriptLang.Token.Reader
import ScriptLang.Tree.Printer

/-!
# The command line

What the program does with its arguments, the files it can see and its standard input: an exit code, what it writes to
its two outputs, and whether it leaves a log file behind.
-/

namespace ScriptLang.CommandLine

/-- What a process does to its surroundings. -/
structure Effect where
  exitCode : Nat
  stdout : ByteArray
  stderr : String
  logFile : Bool

/-- Why no source can be read. -/
inductive InputFault
  | notOpened (name cause : String)
  | notRead (name cause : String)
  | notText (name : String) (cause : Text.ByteFault)
  | stdin

/-- The report about input that cannot be read: what was tried, and why it failed. -/
def InputFault.message : InputFault → String
  | notOpened name cause => report ("Failed to open file " ++ Text.quote name) cause
  | notRead name cause => report ("Failed to read file " ++ Text.quote name) cause
  | notText name cause => report ("File " ++ Text.quote name ++ " is not valid UTF-8") cause.message
  | stdin => report "Failed to read from stdin" "stream did not contain valid UTF-8"
where
  /-- A context and its cause. -/
  report (context cause : String) : String :=
    "Error: " ++ context ++ "\n\nCaused by:\n    " ++ cause ++ "\n"

/-- The text of a file. -/
def readFile (files : String → Entry) (name : String) : Except InputFault String :=
  match files name with
  | .missing => .error (.notOpened name "No such file or directory (os error 2)")
  | .notDirectory => .error (.notOpened name "Not a directory (os error 20)")
  | .tooLong => .error (.notOpened name "File name too long (os error 36)")
  | .directory => .error (.notRead name "Is a directory (os error 21)")
  | .file bytes =>
    match Text.decode bytes with
    | .ok source => .ok source
    | .error fault => .error (.notText name fault)

/-- Texts, each with a line end behind it. -/
def lines (texts : List String) : String := String.join (texts.map (· ++ "\n"))

/-- Diagnostics, one after the other. -/
def reports (diagnostics : List Diagnostic) : String := lines (diagnostics.map Diagnostic.text)

/-- Lists the tokens of a source, as a reader gives them. -/
def listTokens (json log : Bool) (source : String) : Effect :=
  let text (t : Token) := if json then t.toJson else t.describe
  let (items, complete) := (Reader.ofSource source).items
  let faults := (items.filterMap Item.fault?).map fun f => Diagnostic.lexical f.1 f.2
  let exitCode := if !complete then 101 else if faults.isEmpty then 0 else 65
  ⟨exitCode, (lines ((items.filterMap Item.token?).map text)).toUTF8, reports faults, log⟩

/-- Shows the tree of a source. -/
def showTree (log : Bool) (source : String) : Effect :=
  let faults := lexicalDiagnostics source
  match (parse 0 (tokensOf source)).result with
  | .error rs => ⟨65, ByteArray.empty, reports (faults ++ rs.map .ofSyntax), log⟩
  | .ok program =>
    if faults.isEmpty then ⟨0, (programText program ++ "\n").toUTF8, "", log⟩
    else ⟨65, ByteArray.empty, reports faults, log⟩

/-- Runs a source. -/
def runSource (fuel : Nat) (clock : Clock) (stdin : List UInt8) (log : Bool) (source : String) : Effect :=
  let answer := (Session.start ⟨.unlimited, stdin, clock⟩).run fuel source
  ⟨answer.outcome.exitCode, answer.session.output, reports answer.diagnostics, log⟩

/-! ## the interactive session -/

/-- What is shown before a line is read. -/
def prompt : String := "> "

/-- A line of input without its end. -/
def dropLineEnd (line : List UInt8) : List UInt8 :=
  match line.reverse with
  | 10 :: 13 :: rest => rest.reverse
  | 10 :: rest => rest.reverse
  | _ => line

/-- What comes of a line: the session behind it, and what it wrote to the two outputs. -/
structure Exchange where
  session : Session
  stdout : ByteArray
  stderr : String

/-- Runs a line of input and forgets its faults. -/
def exchange (fuel : Nat) (s : Session) (line : List UInt8) : Except InputFault Exchange :=
  match Text.decode (dropLineEnd line) with
  | .error _ => .error .stdin
  | .ok source =>
    let answer := s.run fuel source
    let written := answer.session.output
    .ok ⟨answer.session.reset, written.extract s.output.size written.size, reports answer.diagnostics⟩

/-- Runs the lines of the input, each on its own; no more lines than bytes. -/
def interact (fuel : Nat) (log : Bool) : Nat → Session → ByteArray → String → List UInt8 → Effect
  | 0, _, stdout, stderr, _ => ⟨0, stdout, stderr, log⟩
  | n + 1, s, stdout, stderr, input =>
    let stdout := stdout ++ prompt.toUTF8
    match Console.splitLine input with
    | ([], _) => ⟨0, stdout ++ "\n".toUTF8, stderr, log⟩
    | (line, rest) =>
      match exchange fuel s line with
      | .error fault => ⟨1, stdout, stderr ++ fault.message, log⟩
      | .ok x => interact fuel log n x.session (stdout ++ x.stdout) (stderr ++ x.stderr) rest

/-! ## the whole -/

/-- The name of the log file. -/
def logName : String := "app.log"

/-- What is shown when a command lacks its file. -/
def missingFile : String := "No input filepath was provided. Exiting...\n"

/-- The name and version of the program. -/
def versionText : String := "rox 0.2.0\n"

/-- How the program is used. -/
def usageText : String :=
  "Usage: rox [--log] tokenize [--json] [FILE] | parse [FILE] | run [FILE] | repl\n"

/-- Does something with the source in a file. -/
def withFile (files : String → Entry) (log : Bool) (file : Option String) (f : String → Effect) : Effect :=
  match file with
  | none => ⟨0, missingFile.toUTF8, "", log⟩
  | some name =>
    match readFile files name with
    | .error fault => ⟨1, ByteArray.empty, fault.message, log⟩
    | .ok source => f source

/-- Does what a command asks for. -/
def Command.effect (fuel : Nat) (clock : Clock) (files : String → Entry) (stdin : List UInt8) (log : Bool) :
    Command → Effect
  | .tokenize file json => withFile files log file (listTokens json log)
  | .parse file => withFile files log file (showTree log)
  | .run file => withFile files log file (runSource fuel clock stdin log)
  | .repl =>
    interact fuel log (stdin.length + 1) (Session.start ⟨.unlimited, [], clock⟩) ByteArray.empty "" stdin

/-- More calls inside each other than any run can reach. -/
def ampleFuel : Nat := Nat.pow 2 62

/-- What the program does.  The files are those that it sees with or without the log file, which is made first. -/
def effect (fuel : Nat) (clock : Clock) (args : List String) (files : (log : Bool) → String → Entry)
    (stdin : List UInt8) : Effect :=
  match Request.ofArguments false args with
  | .usage => ⟨2, ByteArray.empty, usageText, false⟩
  | .version => ⟨0, versionText.toUTF8, "", false⟩
  | .help => ⟨0, usageText.toUTF8, "", false⟩
  | .command c log => c.effect fuel clock (files log) stdin log

end ScriptLang.CommandLine
