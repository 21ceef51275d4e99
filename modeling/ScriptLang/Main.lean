import ScriptLang.CommandLine
import Std.Time.DateTime.Timestamp

/-!
# The program

Asks the surroundings for arguments, files, input and time, and does to them what `CommandLine` says.
-/

namespace ScriptLang

open CommandLine

/-- The time in seconds since the start of 1970. -/
def timeNow : IO Float := do
  let time ← Std.Time.Timestamp.now
  return Float.ofInt time.toNanosecondsSinceUnixEpoch.val / 1000000000

/-- What stands under a name in the file system. -/
def entryAt (name : String) : IO Entry := do
  try
    return .file (← IO.FS.readBinFile name).toList
  catch
    | .noFileOrDirectory _ _ _ => return .missing
    | .inappropriateType _ 21 _ => return .directory
    | .invalidArgument _ _ _ => return .tooLong
    | _ => return .notDirectory

/-- All bytes of an input. -/
def readAll (input : IO.FS.Stream) : IO ByteArray := do
  let mut bytes := ByteArray.empty
  repeat
    let chunk ← input.read 65536
    if chunk.isEmpty then break
    bytes := bytes ++ chunk
  return bytes

/-- The bytes of an input up to a line end, which is included. -/
def readLine (input : IO.FS.Stream) : IO ByteArray := do
  let mut bytes := ByteArray.empty
  repeat
    let byte ← input.read 1
    bytes := bytes ++ byte
    if byte.isEmpty || byte.toList = [10] then break
  return bytes

/-- The file that a command reads. -/
def fileOf : Command → Option String
  | .tokenize file _ | .parse file | .run file => file
  | .repl => none

/-- Makes the log file, if it is wanted. -/
def makeLog (log : Bool) : IO Unit := do
  if log then IO.FS.writeFile logName ""

/-- Does to the outputs what an effect says. -/
def carryOut (e : Effect) : IO UInt32 := do
  (← IO.getStdout).write e.stdout
  (← IO.getStderr).putStr e.stderr
  return UInt32.ofNat e.exitCode

/-- Runs a session line by line. -/
def converse (clock : Clock) (log : Bool) : IO UInt32 := do
  makeLog log
  let stdin ← IO.getStdin
  let stdout ← IO.getStdout
  let stderr ← IO.getStderr
  let mut session := Session.start ⟨.unlimited, [], clock⟩
  repeat
    stdout.putStr prompt
    stdout.flush
    let line ← readLine stdin
    if line.isEmpty then break
    match exchange ampleFuel session line.toList with
    | .ok x =>
      stdout.write x.stdout
      stderr.putStr x.stderr
      session := x.session
    | .error fault =>
      stderr.putStr fault.message
      return 1
  stdout.putStr "\n"
  return 0

end ScriptLang

open ScriptLang CommandLine

/-- Runs the program with its arguments. -/
def main (args : List String) : IO UInt32 := do
  let clock ← timeNow
  match Request.ofArguments false args with
  | .command .repl log => converse clock log
  | .command c log =>
    makeLog log
    let entry ← match fileOf c with
      | some name => entryAt name
      | none => pure .missing
    let stdin ← match c with
      | .run (some _) => readAll (← IO.getStdin)
      | _ => pure ByteArray.empty
    carryOut (effect ampleFuel clock args (fun _ _ => entry) stdin.toList)
  | _ => carryOut (effect ampleFuel clock args (fun _ _ => .missing) [])
