import LoxLang.CommandLine
import LoxLang.Eval.Asking
import Std.Time.DateTime.Timestamp

namespace LoxLang.Program

/-- The error of the library for a number of the system's, which may come with either sign. -/
def systemError (code : UInt32) : Files.Error :=
  match min code.toNat (0 - code).toNat with
  | 2 => .notFound
  | 13 => .denied
  | 20 => .notADirectory
  | 21 => .isADirectory
  | 36 => .nameTooLong
  | code => .other code

/-- The error of the library for one of reading a file. -/
def fileError : IO.Error → Files.Error
  | .noFileOrDirectory _ code _ => systemError code
  | .inappropriateType _ code _ => systemError code
  | .permissionDenied _ code _ => systemError code
  | .invalidArgument _ code _ => systemError code
  | .resourceExhausted _ code _ => systemError code
  | .illegalOperation code _ => systemError code
  | .otherError code _ => systemError code
  | _ => .other 0

def readFile (path : String) : IO (Except Files.Error (List UInt8)) := do
  try
    let bytes ← IO.FS.readBinFile path
    pure (.ok bytes.toList)
  catch e => pure (.error (fileError e))

/-- The time in seconds. -/
def timeNow : IO Number := do
  let now ← Std.Time.Timestamp.now
  let milliseconds := now.toMillisecondsSinceUnixEpoch.toInt.toNat
  pure (.ofFloat (milliseconds.toFloat / 1000))

/-- Fuel that outlasts any run that ends in a lifetime. -/
def enough : Nat := Nat.pow 2 62

/-- Go on with a computation, which is told the time whenever it asks. -/
def tellTimes {α : Type} : Paused α → IO α
  | .ended a => pure a
  | .asks next => do
    let time ← timeNow
    tellTimes (next time)

/-- Run the program that a result is waiting for. -/
def settle {α : Type} (p : Pending α) : IO (Option α) := tellTimes (p.asking enough)

def writeAll (ws : List Write) : IO Unit := do
  for w in ws do
    match w.stream with
    | .out =>
      IO.print w.text
      (← IO.getStdout).flush
    | .err => IO.eprint w.text

def finish (ending : Option CommandLine.Ending) : IO UInt32 := do
  match ending with
  | none => pure CommandLine.failureCode.toUInt32
  | some ending =>
    writeAll ending.written
    pure ending.code.toUInt32

/-- The bytes up to and with the next newline, or up to the end of the input. -/
partial def readLine (input : IO.FS.Stream) (line : ByteArray) : IO ByteArray := do
  let next ← input.read 1
  if next.isEmpty then pure line
  else
    let line := line ++ next
    if next.toList = [Text.Lines.newline] then pure line else readLine input line

/-- Answer the lines of standard input as they come. -/
partial def prompt (input : IO.FS.Stream) (s : Session) : IO UInt32 := do
  let (ws, s) := (s.write .out Session.cue).takeWritten
  writeAll ws
  let bytes ← readLine input .empty
  match Text.Lines.split bytes.toList with
  | [] => pure ExitStatus.success.code.toUInt32
  | line :: _ =>
    match ← settle (s.startLine line) with
    | some (.next s) => prompt input s
    | some (.file path s) =>
      let ending ← settle (s.startFile (← readFile path))
      finish (ending.map fun (result, s) => CommandLine.endPrompt result s)
    | some (.stopped e s) => finish (some (CommandLine.endPrompt (.error e) s))
    | some .exhausted | none => finish none

/-- Make the log that is asked for, if one is. -/
def makeLog (reading : CommandLine.Reading) : IO (Except Files.Error Unit) := do
  try
    if reading.logs then IO.FS.writeFile CommandLine.logName ""
    pure (.ok ())
  catch e => pure (.error (fileError e))

def execute : CommandLine.Command → IO UInt32
  | .refused => finish (some CommandLine.refusal)
  | .version => finish (some CommandLine.versionEnding)
  | .usage => finish (some CommandLine.usageEnding)
  | .prompt => do prompt (← IO.getStdin) (Session.initial.writeLines Session.banner)
  | .script action path => do
    let contents ← readFile path
    finish (← settle (CommandLine.startAction path contents action))

/-- Answer the arguments of the process with its exit code. -/
def answer (arguments : List String) : IO UInt32 := do
  let reading := CommandLine.read arguments
  match ← makeLog reading with
  | .error e => finish (some (CommandLine.unlogged e))
  | .ok _ => execute reading.command

end LoxLang.Program

/-- Read arguments, files and standard input, and write what the library answers. -/
def main (arguments : List String) : IO UInt32 := LoxLang.Program.answer arguments
