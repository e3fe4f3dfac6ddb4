import LoxLang.Tree.Basic
import LoxLang.Diagnostic

namespace LoxLang

namespace Parse

structure State where
  /-- The tokens still to be read, all of them before the end of the source. -/
  tokens : List Token
  /-- The end of the source, where errors past the last token are reported. -/
  finish : Token
  errors : Array SyntaxError
  nextId : OccurrenceId

/-- The token at which reading stands. -/
def State.current (s : State) : Token := s.tokens.headD s.finish

inductive Outcome (α : Type) where
  | done (value : α) (state : State)
  | failed (error : SyntaxError) (state : State)
  | exhausted

end Parse

/-- A reader of tokens. It consumes tokens from the front; it may fail at a token, and it may report errors that do not
stop it. Readers recurse on fuel, and running out of it is an outcome of its own. -/
def Parse (α : Type) : Type := Parse.State → Parse.Outcome α

namespace Parse

instance : Monad Parse where
  pure a := fun s => .done a s
  bind x f := fun s =>
    match x s with
    | .done a s => f a s
    | .failed e s => .failed e s
    | .exhausted => .exhausted

def exhausted {α : Type} : Parse α := fun _ => .exhausted

/-- Stop at the current token. -/
def fail {α : Type} (cause : SyntaxError.Cause) : Parse α := fun s => .failed ⟨cause, s.current⟩ s

/-- Report an error and go on. -/
def report (cause : SyntaxError.Cause) (token : Token) : Parse Unit :=
  fun s => .done () { s with errors := s.errors.push ⟨cause, token⟩ }

def current : Parse Token := fun s => .done s.current s

/-- A token is left and is of the kind asked for. -/
def next (p : Token → Bool) : Parse Bool := fun s => .done (s.tokens.head?.any p) s

/-- Nothing is left or, inside braces, the closing brace is next. -/
def atEnd (inBraces : Bool) : Parse Bool := fun s =>
  .done (s.tokens.isEmpty || inBraces && s.tokens.head?.any (·.isMark .rightBrace)) s

/-- What `f` makes of the next token, which is consumed if it makes something of it. -/
def take? {α : Type} (f : Token → Option α) : Parse (Option α) := fun s =>
  match s.tokens with
  | [] => .done none s
  | t :: rest =>
    match f t with
    | some a => .done (some a) { s with tokens := rest }
    | none => .done none s

/-- The next token, consumed, if it is of the kind asked for. -/
def accept? (p : Token → Bool) : Parse (Option Token) := take? (fun t => if p t then some t else none)

def accept (p : Token → Bool) : Parse Bool := do
  let t ← accept? p
  pure t.isSome

/-- The next token, which has to be of the kind asked for. -/
def expect (p : Token → Bool) (cause : SyntaxError.Cause) : Parse Token := do
  match ← accept? p with
  | some t => pure t
  | none => fail cause

def freshId : Parse OccurrenceId := fun s => .done s.nextId { s with nextId := s.nextId + 1 }

end Parse

end LoxLang
