import LoxLang.Interpreter
import LoxLang.Grammar.Statements
import LoxLang.Tree.Printer
import LoxLang.Token.Lexer
import LoxLang.Token.Json
import LoxLang.Files
import LoxLang.Text.Blank
import LoxLang.Text.Lines
import LoxLang.Text.Utf8

namespace LoxLang

inductive Stream where
  | out
  | err
deriving DecidableEq, Repr

/-- A text written to a stream. -/
structure Write where
  stream : Stream
  text : String
deriving DecidableEq, Repr

namespace Write

/-- The same writes with neighbours on one stream joined. -/
def joined : List Write → List Write
  | [] => []
  | w :: ws =>
    match joined ws with
    | [] => [w]
    | next :: rest =>
      if w.stream = next.stream then ⟨w.stream, w.text ++ next.text⟩ :: rest else w :: next :: rest

/-- All that was written to a stream. -/
def textOn (stream : Stream) (ws : List Write) : String :=
  String.join ((ws.filter fun w => w.stream = stream).map Write.text)

end Write

/-- How a run ends, as the process tells it. -/
inductive ExitStatus where
  | success
  | usage
  /-- A static error was reported. -/
  | dataError
  /-- A run-time error was reported. -/
  | software
deriving DecidableEq, Repr

def ExitStatus.code : ExitStatus → Nat
  | success => 0
  | usage => 64
  | dataError => 65
  | software => 70

/-- Why a session stops before its end. -/
inductive Failure where
  | file (error : Files.Error)
  | encoding (error : Text.Utf8.Error)
  /-- A line of input is not UTF-8. -/
  | input
deriving DecidableEq, Repr

/-- The text for bytes that should have been UTF-8, where no place in them is told. -/
def invalidUtf8 : String := "stream did not contain valid UTF-8"

def Failure.message : Failure → String
  | file e => e.message
  | encoding e => e.message
  | input => invalidUtf8

/-- A session runs programs one after another, reports their errors and keeps what it has written. Once a static error
has been reported nothing runs any more, until the flags are cleared between the lines of a prompt. -/
structure Session where
  interpreter : Interpreter
  /-- The first identity of an occurrence not given out. -/
  nextId : OccurrenceId
  hadError : Bool
  hadRuntimeError : Bool
  written : Array Write

/-- A bare expression turned into a statement that prints its value. -/
def Stmt.echoed : Stmt → Stmt
  | .expression value => .print value
  | s => s

namespace Session

def initial : Session := ⟨.initial, 0, false, false, #[]⟩

def write (s : Session) (stream : Stream) (text : String) : Session :=
  { s with written := s.written.push ⟨stream, text⟩ }

def writeLine (s : Session) (stream : Stream) (line : String) : Session :=
  s.write stream (line ++ "\n")

def writeLines (s : Session) (lines : List String) : Session :=
  lines.foldl (fun s line => s.writeLine .out line) s

/-- Write an error and raise its flag. -/
def report (s : Session) (d : Diagnostic) : Session :=
  let s := s.writeLine .err d.message
  if d.isStatic then { s with hadError := true } else { s with hadRuntimeError := true }

def reportAll (s : Session) (ds : List Diagnostic) : Session := ds.foldl report s

/-- A static error reported so far counts before a run-time error. -/
def status (s : Session) : ExitStatus :=
  if s.hadError then .dataError
  else if s.hadRuntimeError then .software
  else .success

/-- The program of a source, unless a static error has been reported by now. -/
def parse (s : Session) (source : String) : Option (List Stmt) × Session :=
  let parsed := Parsed.ofTokens (Token.ofSource source) s.nextId
  let s := s.reportAll ((LexicalError.ofSource source).map .lexical)
  let s := s.reportAll (parsed.errors.map .grammar)
  let s := { s with nextId := parsed.nextId }
  if s.hadError then (none, s) else (some parsed.statements, s)

/-- After the run of a program: what it printed is written, and its error if there is one. -/
def afterRun (s : Session) (r : Option RuntimeError × Interpreter) : Session :=
  let (lines, i) := r.2.takePrinted
  let s := { s with interpreter := i }.writeLines lines
  match r.1 with
  | some e => s.report (.runtime e)
  | none => s

/-- Bind the names of a program. If they are bound, what is left is to run it. -/
def startProgram (s : Session) (program : List Stmt) : Pending Session :=
  match s.interpreter.bind program with
  | .error es =>
    let s := { s with interpreter := s.interpreter.forgetTopLevel }
    .settled (s.reportAll (es.map .binding))
  | .ok i => .awaits i program s.afterRun

def runProgram (s : Session) (c : Conditions) (program : List Stmt) : Option Session :=
  (s.startProgram program).under c

/-- Read a source and bind its names. With echo, its bare expressions print their values. -/
def start (s : Session) (echo : Bool) (source : String) : Pending Session :=
  match s.parse source with
  | (none, s) => .settled s
  | (some program, s) => s.startProgram (if echo then program.map Stmt.echoed else program)

/-- Run a source. -/
def run (s : Session) (c : Conditions) (echo : Bool) (source : String) : Option Session :=
  (s.start echo source).under c

def startSource (s : Session) (source : String) : Pending (ExitStatus × Session) :=
  (s.start false source).map fun s => (s.status, s)

def runSource (s : Session) (c : Conditions) (source : String) : Option (ExitStatus × Session) :=
  (s.startSource source).under c

/-- Start what was read from a file. -/
def startFile (s : Session) (contents : Except Files.Error (List UInt8)) :
    Pending (Except Failure ExitStatus × Session) :=
  match contents with
  | .error e => .settled (.error (.file e), s)
  | .ok bytes =>
    match Text.Utf8.decode bytes with
    | .error e => .settled (.error (.encoding e), s)
    | .ok source => (s.startSource (String.ofList source)).map fun (status, s) => (.ok status, s)

def runFile (s : Session) (c : Conditions) (contents : Except Files.Error (List UInt8)) :
    Option (Except Failure ExitStatus × Session) :=
  (s.startFile contents).under c

/-- Write the trees of a source. -/
def printTrees (s : Session) (source : String) : Session :=
  match s.parse source with
  | (none, s) => s
  | (some program, s) => s.writeLines (program.map Stmt.render)

/-- Write the tokens of a source, in spite of lexical errors. -/
def printTokens (s : Session) (json : Bool) (source : String) : Session :=
  let s := s.reportAll ((LexicalError.ofSource source).map .lexical)
  s.writeLines ((Token.ofSource source).map fun t => if json then String.ofList t.json else t.display)

def banner : List String :=
  ["treelox REPL",
   "CTRL + D to exit",
   "-f <filename> to run a file in the lox dir (no ext)",
   "-d plus your input will print out the AST",
   ""]

/-- What stands before each line. -/
def cue : String := "> "

/-- What a line asks for: to run a file, to see the trees of a source, or to run a source. -/
inductive Line where
  | file (path : String)
  | trees (source : String)
  | program (source : String)
deriving DecidableEq, Repr

/-- The path of a named file. -/
def pathOf (name : List Char) : String := "lox/" ++ String.ofList (Text.trim name) ++ ".lox"

def Line.ofChars : List Char → Line
  | '-' :: 'f' :: ' ' :: name => .file (pathOf name)
  | '-' :: 'd' :: ' ' :: source => .trees (String.ofList source)
  | source => .program (String.ofList source)

/-- After a line its errors are forgotten. -/
def clearFlags (s : Session) : Session := { s with hadError := false, hadRuntimeError := false }

/-- What comes of a line. -/
inductive Answer where
  | next (session : Session)
  /-- A file takes over. -/
  | file (path : String) (session : Session)
  | stopped (failure : Failure) (session : Session)
  | exhausted

/-- Read the bytes of a line and do what can be done without running a program. -/
def startLine (s : Session) (bytes : List UInt8) : Pending Answer :=
  match Text.Utf8.decode bytes with
  | .error _ => .settled (.stopped .input s)
  | .ok cs =>
    match Line.ofChars cs with
    | .file path => .settled (.file path s)
    | .trees source => .settled (.next (s.printTrees source).clearFlags)
    | .program source => (s.start true source).map fun s => .next s.clearFlags

/-- Answer the bytes of a line. -/
def answerLine (s : Session) (c : Conditions) (bytes : List UInt8) : Answer :=
  ((s.startLine bytes).under c).getD .exhausted

/-- The lines of a prompt, one after another. A file ends the session with its own outcome, and so does a line
that is not UTF-8. -/
def runLines (c : Conditions) (readFile : String → Except Files.Error (List UInt8)) :
    Session → List (List UInt8) → Option (Except Failure ExitStatus × Session)
  | s, [] => some (.ok .success, s.write .out cue)
  | s, line :: rest =>
    match (s.write .out cue).answerLine c line with
    | .next s => runLines c readFile s rest
    | .file path s => s.runFile c (readFile path)
    | .stopped e s => some (.error e, s)
    | .exhausted => none

/-- A whole prompt, with files read as told. -/
def runPrompt (s : Session) (c : Conditions) (readFile : String → Except Files.Error (List UInt8))
    (input : List UInt8) : Option (Except Failure ExitStatus × Session) :=
  runLines c readFile (s.writeLines banner) (Text.Lines.split input)

/-- What was written since it was last taken. -/
def takeWritten (s : Session) : List Write × Session :=
  (s.written.toList, { s with written := #[] })

end Session

end LoxLang
