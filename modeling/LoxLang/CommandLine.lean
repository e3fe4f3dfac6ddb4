import LoxLang.Session
import LoxLang.Text.Escaped

namespace LoxLang

namespace CommandLine

/-- The flags given so far and the scripts named so far. -/
structure Arguments where
  log : Bool
  tokens : Bool
  json : Bool
  trees : Bool
  scripts : List String
deriving DecidableEq, Repr

namespace Arguments

def start : Arguments := ⟨false, false, false, false, []⟩

/-- One flag more, unless it was there before. -/
def flag? (a : Arguments) (name : String) : Option Arguments :=
  match name with
  | "--log" => if a.log then none else some { a with log := true }
  | "--tokens" => if a.tokens then none else some { a with tokens := true }
  | "--json" => if a.json then none else some { a with json := true }
  | "--ast" => if a.trees then none else some { a with trees := true }
  | _ => none

/-- One script more. Its name is not empty. -/
def script? (a : Arguments) (path : String) : Option Arguments :=
  if path = "" then none else some { a with scripts := a.scripts ++ [path] }

/-- Tokens and trees exclude each other. JSON asks for tokens; where trees exclude them it asks for nothing. -/
def areConsistent (a : Arguments) : Bool := !(a.tokens && a.trees) && (!a.json || a.tokens || a.trees)

end Arguments

/-- What a list of arguments is read as. -/
inductive Reading where
  | refused
  | version
  | accepted (arguments : Arguments)
deriving DecidableEq, Repr

def isVersion (arg : String) : Bool := arg == "--version" || arg.startsWith "-V"

/-- A lone hyphen names a script. -/
def isFlag (arg : String) : Bool := arg.startsWith "-" && arg != "-"

/-- Read arguments one after another. Two hyphens end the flags; a request for the version is answered at once. -/
def readFrom (a : Arguments) (flags : Bool) : List String → Reading
  | [] => if a.areConsistent then .accepted a else .refused
  | arg :: rest =>
    if flags && arg == "--" then readFrom a false rest
    else if flags && isVersion arg then .version
    else
      match if flags && isFlag arg then a.flag? arg else a.script? arg with
      | some a => readFrom a flags rest
      | none => .refused

def read (arguments : List String) : Reading := readFrom .start true arguments

/-- What is done with a script. -/
inductive Action where
  | run
  | tokens (json : Bool)
  | trees
deriving DecidableEq, Repr

/-- What a command line asks for. -/
inductive Command where
  | refused
  | version
  /-- More than one script. -/
  | usage
  | prompt
  | script (action : Action) (path : String)
deriving DecidableEq, Repr

namespace Arguments

def action (a : Arguments) : Action :=
  if a.tokens then .tokens a.json else if a.trees then .trees else .run

def command (a : Arguments) : Command :=
  match a.scripts with
  | [] => .prompt
  | [path] => .script a.action path
  | _ => .usage

end Arguments

def Reading.command : Reading → Command
  | refused => .refused
  | version => .version
  | accepted a => a.command

/-- A log is asked for. -/
def Reading.logs : Reading → Bool
  | accepted a => a.log
  | _ => false

/-- How the process ends: what it writes, and its exit code. -/
structure Ending where
  written : List Write
  code : Nat
deriving DecidableEq, Repr

def versionLine : String := "treelox 0.1.0\n"

def usageLine : String := "Usage: treelox [script]\n"

/-- The exit code for arguments that are refused. -/
def refusedCode : Nat := 2

/-- The exit code of a failure. -/
def failureCode : Nat := 1

/-- A failure with what was being done when it arose. -/
def failureText (context : String) (message : String) : String :=
  "Error: " ++ context ++ "\n\nCaused by:\n    " ++ message ++ "\n"

/-- The end of a session that could not do what it was asked to. -/
def failed (s : Session) (text : String) : Ending :=
  ⟨s.written.toList ++ [⟨.err, text⟩], failureCode⟩

def ended (s : Session) (status : ExitStatus) : Ending := ⟨s.written.toList, status.code⟩

/-- The source of a script that is only looked at. -/
def sourceOf (contents : Except Files.Error (List UInt8)) : Except String String := do
  match contents with
  | .error e => .error e.message
  | .ok bytes =>
    match Text.Utf8.decode bytes with
    | .error _ => .error invalidUtf8
    | .ok cs => .ok (String.ofList cs)

/-- Look at a script without running it. -/
def inspect (path : String) (contents : Except Files.Error (List UInt8)) (look : String → Session) :
    Ending :=
  match sourceOf contents with
  | .error message => failed .initial (failureText ("Failed to read file " ++ Text.Escaped.quote path) message)
  | .ok source =>
    let s := look source
    ended s s.status

/-- The end of a script that has run. -/
def endScript (path : String) (result : Except Failure ExitStatus) (s : Session) : Ending :=
  match result with
  | .ok status => ended s status
  | .error e => failed s (failureText ("Failed to run file " ++ Text.Escaped.quote path) e.message)

/-- The end of a prompt. -/
def endPrompt (result : Except Failure ExitStatus) (s : Session) : Ending :=
  match result with
  | .ok status => ended s status
  | .error e => failed s ("Error: " ++ e.message ++ "\n")

/-- Do with a script what is asked for, but for the run of its program. -/
def startAction (path : String) (contents : Except Files.Error (List UInt8)) : Action → Pending Ending
  | .run => (Session.initial.startFile contents).map fun (result, s) => endScript path result s
  | .tokens json => .settled (inspect path contents (Session.initial.printTokens json ·))
  | .trees => .settled (inspect path contents (Session.initial.printTrees ·))

def refusal : Ending := ⟨[], refusedCode⟩

def versionEnding : Ending := ⟨[⟨.out, versionLine⟩], ExitStatus.success.code⟩

def usageEnding : Ending := ⟨[⟨.out, usageLine⟩], ExitStatus.usage.code⟩

/-- Carry out a command, given how files read and all of the input. -/
def execute (c : Conditions) (readFile : String → Except Files.Error (List UInt8)) (input : List UInt8) :
    Command → Option Ending
  | .refused => some refusal
  | .version => some versionEnding
  | .usage => some usageEnding
  | .script action path => (startAction path (readFile path) action).under c
  | .prompt => do
    let (result, s) ← Session.initial.runPrompt c readFile input
    pure (endPrompt result s)

/-- The file that a log goes to. -/
def logName : String := "app.log"

/-- The end of a process whose log cannot be made. -/
def unlogged (e : Files.Error) : Ending :=
  failed .initial (failureText ("Failed to create " ++ logName) e.message)

/-- Answer arguments, given files and all of the input. A log is made before anything else, and is then one of the
files. What is written to it is left open. -/
def answer (c : Conditions) (files : Files) (input : List UInt8) (r : Reading) : Option Ending :=
  match if r.logs then files.create logName else .ok files with
  | .error e => some (unlogged e)
  | .ok files => execute c files.read input r.command

end CommandLine

end LoxLang
