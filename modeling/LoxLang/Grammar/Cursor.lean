import LoxLang.Grammar.Statements

namespace LoxLang

/-- A place in a list of tokens that has an end in it. Readers look at the token there and at the one before it, and
move on by one token at a time, but not past the end. -/
structure Cursor where
  /-- The whole list, with an end. -/
  tokens : List Token
  position : Nat
  errors : Array SyntaxError
  nextId : OccurrenceId
  /-- Where the cursor stood when a token was looked at, the last time first. -/
  looks : List Nat

namespace Cursor

/-- At the first of the tokens. A list that does not end with an end of the source gets one, on the line of its last
token. -/
def ofTokens (tokens : List Token) (nextId : OccurrenceId) : Cursor :=
  let closed :=
    if tokens.getLast?.any (·.kind == .finish) then tokens
    else tokens ++ [⟨.finish, "", (tokens.getLast?.map Token.line).getD 1⟩]
  ⟨closed, 0, #[], nextId, []⟩

inductive Outcome (α : Type) where
  | done (value : α) (cursor : Cursor)
  | failed (error : SyntaxError) (cursor : Cursor)
  /-- A token was looked at that is not there. -/
  | outOfRange
  | exhausted

end Cursor

/-- A reader of tokens in place. -/
def Reader (α : Type) : Type := Cursor → Cursor.Outcome α

namespace Reader

instance : Monad Reader where
  pure a := fun c => .done a c
  bind x f := fun c =>
    match x c with
    | .done a c => f a c
    | .failed e c => .failed e c
    | .outOfRange => .outOfRange
    | .exhausted => .exhausted

def exhausted {α : Type} : Reader α := fun _ => .exhausted

/-- Look at a token while the cursor stands where it does. -/
def look (at_ : Nat → Nat) : Reader Token := fun c =>
  match c.tokens[at_ c.position]? with
  | some t => .done t { c with looks := c.position :: c.looks }
  | none => .outOfRange

/-- The token at hand. -/
def peek : Reader Token := look id

/-- The token before the one at hand; at the first token, that token itself. -/
def previous : Reader Token := look (· - 1)

def isAtEnd : Reader Bool := do
  let t ← peek
  pure (t.kind == .finish)

/-- Move on, unless the end is at hand. The token that is left behind is the answer. -/
def advance : Reader Token := do
  if ← isAtEnd then previous
  else fun c => previous { c with position := c.position + 1 }

/-- The token at hand is not the end, and it is of the kind asked for. -/
def check (p : Token → Bool) : Reader Bool := do
  if ← isAtEnd then pure false
  else
    let t ← peek
    pure (p t)

/-- Move on if the token at hand is of the kind asked for. -/
def accept (p : Token → Bool) : Reader Bool := do
  if ← check p then
    let _ ← advance
    pure true
  else pure false

/-- The same, with the token that is left behind. -/
def accept? (p : Token → Bool) : Reader (Option Token) := do
  if ← accept p then
    let t ← previous
    pure (some t)
  else pure none

def fail {α : Type} (cause : SyntaxError.Cause) : Reader α := do
  let t ← peek
  fun c => .failed ⟨cause, t⟩ c

def report (cause : SyntaxError.Cause) (token : Token) : Reader Unit :=
  fun c => .done () { c with errors := c.errors.push ⟨cause, token⟩ }

def expect (p : Token → Bool) (cause : SyntaxError.Cause) : Reader Token := do
  if ← check p then advance else fail cause

def freshId : Reader OccurrenceId := fun c => .done c.nextId { c with nextId := c.nextId + 1 }

/-- The end is at hand or, inside braces, a closing brace. -/
def closes (inBraces : Bool) : Reader Bool := do
  let brace ← if inBraces then check (·.isMark .rightBrace) else pure false
  if brace then pure true else isAtEnd

def assignment (target : Expr) (equals : Token) (value : Expr) : Reader Expr :=
  match target with
  | .variable _ name => do
    let id ← freshId
    pure (.assign id name value)
  | .get object name => pure (.set object name value)
  | other => do
    report .assignmentTarget equals
    pure other

/-- The token at hand as a literal, which is left behind if it is one. -/
def literal? : Reader (Option Literal) := do
  let t ← peek
  match Parse.literal? t with
  | some value =>
    let _ ← advance
    pure (some value)
  | none => pure none

mutual

def expression : Nat → Reader Expr
  | 0 => exhausted
  | fuel + 1 => do
    let target ← ternary fuel
    match ← accept? (·.isMark .equal) with
    | none => pure target
    | some equals =>
      let value ← expression fuel
      assignment target equals value

def ternary : Nat → Reader Expr
  | 0 => exhausted
  | fuel + 1 => do
    let condition ← binary fuel .or
    if ← accept (·.isMark .question) then
      let thenBranch ← ternary fuel
      let _ ← expect (·.isMark .colon) .ternaryColon
      let elseBranch ← ternary fuel
      pure (.ternary condition thenBranch elseBranch)
    else pure condition

def binary : Nat → Level → Reader Expr
  | 0, _ => exhausted
  | fuel + 1, level => do
    let left ← operand fuel level
    chain fuel level left

def operand : Nat → Level → Reader Expr
  | 0, _ => exhausted
  | fuel + 1, level =>
    match level.tighter? with
    | some tighter => binary fuel tighter
    | none => unary fuel

def chain : Nat → Level → Expr → Reader Expr
  | 0, _, _ => exhausted
  | fuel + 1, level, left => do
    match ← accept? level.isOperator with
    | none => pure left
    | some operator =>
      let right ← operand fuel level
      chain fuel level (level.join left operator right)

def unary : Nat → Reader Expr
  | 0 => exhausted
  | fuel + 1 => do
    match ← accept? Parse.isUnaryOperator with
    | some operator =>
      let right ← unary fuel
      pure (.unary operator right)
    | none =>
      let callee ← primary fuel
      suffixes fuel callee

def suffixes : Nat → Expr → Reader Expr
  | 0, _ => exhausted
  | fuel + 1, callee => do
    if ← accept (·.isMark .leftParen) then
      let given ← arguments fuel
      let paren ← expect (·.isMark .rightParen) .argumentsEnd
      suffixes fuel (.call callee paren given)
    else if ← accept (·.isMark .dot) then
      let name ← expect Token.isIdentifier .propertyName
      suffixes fuel (.get callee name)
    else pure callee

def arguments : Nat → Reader (List Expr)
  | 0 => exhausted
  | fuel + 1 => do
    if ← check (·.isMark .rightParen) then pure []
    else argumentsFrom fuel 0

def argumentsFrom : Nat → Nat → Reader (List Expr)
  | 0, _ => exhausted
  | fuel + 1, count => do
    if maxArity ≤ count then
      report .tooManyArguments (← peek)
    let first ← expression fuel
    if ← accept (·.isMark .comma) then
      let rest ← argumentsFrom fuel (count + 1)
      pure (first :: rest)
    else pure [first]

def primary : Nat → Reader Expr
  | 0 => exhausted
  | fuel + 1 => do
    match ← literal? with
    | some value => pure (.literal value)
    | none =>
      match ← accept? (·.isKeyword .this_) with
      | some keyword =>
        let id ← freshId
        pure (.this id keyword)
      | none =>
        match ← accept? Token.isIdentifier with
        | some name =>
          let id ← freshId
          pure (.variable id name)
        | none =>
          if ← accept (·.isMark .leftParen) then
            let inner ← expression fuel
            let _ ← expect (·.isMark .rightParen) .groupEnd
            pure (.group inner)
          else fail .expression

end

/-- Go on to the end, to just behind a semicolon, or to a word that starts a statement. -/
def skip : Nat → Reader Unit
  | 0 => exhausted
  | fuel + 1 => do
    if ← isAtEnd then pure ()
    else if (← previous).isMark .semicolon then pure ()
    else if Parse.startsStatement (← peek) then pure ()
    else
      let _ ← advance
      skip fuel

def synchronize : Reader Unit := do
  let _ ← advance
  fun c => skip c.tokens.length c

/-- Report what stops a reader, and resume. -/
def recover (x : Reader Stmt) : Reader (Option Stmt) := fun c =>
  match x c with
  | .done s c => .done (some s) c
  | .failed e c => (do synchronize; pure none : Reader (Option Stmt)) { c with errors := c.errors.push e }
  | .outOfRange => .outOfRange
  | .exhausted => .exhausted

def parametersFrom : Nat → Nat → Reader (List Token)
  | 0, _ => exhausted
  | fuel + 1, count => do
    if maxArity ≤ count then
      report .tooManyParameters (← peek)
    let first ← expect Token.isIdentifier .parameterName
    if ← accept (·.isMark .comma) then
      let rest ← parametersFrom fuel (count + 1)
      pure (first :: rest)
    else pure [first]

def parameters (fuel : Nat) : Reader (List Token) := do
  if ← check (·.isMark .rightParen) then pure []
  else parametersFrom fuel 0

/-- An expression, unless a token of the given kind follows at once. -/
def expressionUnless (fuel : Nat) (p : Token → Bool) : Reader (Option Expr) := do
  if ← check p then pure none
  else some <$> expression fuel

def varDeclaration (fuel : Nat) : Reader Stmt := do
  let name ← expect Token.isIdentifier .variableName
  if ← accept (·.isMark .equal) then
    let value ← expression fuel
    let _ ← expect (·.isMark .semicolon) .variableEnd
    pure (.var name (some value))
  else
    let _ ← expect (·.isMark .semicolon) .variableEnd
    pure (.var name none)

def expressionStatement (fuel : Nat) : Reader Stmt := do
  let value ← expression fuel
  let _ ← expect (·.isMark .semicolon) .expressionEnd
  pure (.expression value)

def printStatement (fuel : Nat) : Reader Stmt := do
  let value ← expression fuel
  let _ ← expect (·.isMark .semicolon) .printEnd
  pure (.print value)

def returnStatement (fuel : Nat) (keyword : Token) : Reader Stmt := do
  let value ← expressionUnless fuel (·.isMark .semicolon)
  let _ ← expect (·.isMark .semicolon) .returnEnd
  pure (.return keyword value)

def breakStatement (keyword : Token) : Reader Stmt := do
  let _ ← expect (·.isMark .semicolon) .breakEnd
  pure (.break keyword)

def forInitializer (fuel : Nat) : Reader (Option Stmt) := do
  if ← accept (·.isMark .semicolon) then pure none
  else if ← accept (·.isKeyword .var_) then some <$> varDeclaration fuel
  else some <$> expressionStatement fuel

mutual

def declarations : Nat → Bool → Reader (List Stmt)
  | 0, _ => exhausted
  | fuel + 1, inBlock => do
    if ← closes inBlock then pure []
    else
      let first ← recover (item fuel)
      let rest ← declarations fuel inBlock
      pure (first.toList ++ rest)

/-- A declaration, which may fail. -/
def item : Nat → Reader Stmt
  | 0 => exhausted
  | fuel + 1 => do
    if ← accept (·.isKeyword .class_) then classDeclaration fuel
    else if ← accept (·.isKeyword .fun_) then .function <$> function fuel .function
    else if ← accept (·.isKeyword .var_) then varDeclaration fuel
    else statement fuel

def classDeclaration : Nat → Reader Stmt
  | 0 => exhausted
  | fuel + 1 => do
    let name ← expect Token.isIdentifier .className
    let _ ← expect (·.isMark .leftBrace) .classBodyStart
    let declared ← methods fuel
    let _ ← expect (·.isMark .rightBrace) .classBodyEnd
    pure (.class name declared)

def methods : Nat → Reader (List Function)
  | 0 => exhausted
  | fuel + 1 => do
    if ← closes true then pure []
    else
      let first ← function fuel .method
      let rest ← methods fuel
      pure (first :: rest)

def function : Nat → Callable → Reader Function
  | 0, _ => exhausted
  | fuel + 1, callable => do
    let name ← expect Token.isIdentifier (.callableName callable)
    let _ ← expect (·.isMark .leftParen) (.parametersStart callable)
    let declared ← parameters fuel
    let _ ← expect (·.isMark .rightParen) .parametersEnd
    let _ ← expect (·.isMark .leftBrace) (.bodyStart callable)
    let body ← block fuel
    pure (.mk name declared body)

def block : Nat → Reader (List Stmt)
  | 0 => exhausted
  | fuel + 1 => do
    let body ← declarations fuel true
    let _ ← expect (·.isMark .rightBrace) .blockEnd
    pure body

def statement : Nat → Reader Stmt
  | 0 => exhausted
  | fuel + 1 => do
    if ← accept (·.isKeyword .for_) then forStatement fuel
    else if ← accept (·.isKeyword .if_) then ifStatement fuel
    else if ← accept (·.isKeyword .print_) then printStatement fuel
    else
      match ← accept? (·.isKeyword .return_) with
      | some keyword => returnStatement fuel keyword
      | none =>
        if ← accept (·.isKeyword .while_) then whileStatement fuel
        else
          match ← accept? (·.isKeyword .break_) with
          | some keyword => breakStatement keyword
          | none =>
            if ← accept (·.isMark .leftBrace) then .block <$> block fuel
            else expressionStatement fuel

def forStatement : Nat → Reader Stmt
  | 0 => exhausted
  | fuel + 1 => do
    let _ ← expect (·.isMark .leftParen) .forStart
    let initializer ← forInitializer fuel
    let condition ← expressionUnless fuel (·.isMark .semicolon)
    let _ ← expect (·.isMark .semicolon) .loopConditionEnd
    let increment ← expressionUnless fuel (·.isMark .rightParen)
    let _ ← expect (·.isMark .rightParen) .forClausesEnd
    let body ← statement fuel
    pure (.forLoop initializer condition increment body)

def ifStatement : Nat → Reader Stmt
  | 0 => exhausted
  | fuel + 1 => do
    let _ ← expect (·.isMark .leftParen) .ifStart
    let condition ← expression fuel
    let _ ← expect (·.isMark .rightParen) .ifConditionEnd
    let thenBranch ← statement fuel
    if ← accept (·.isKeyword .else_) then
      let elseBranch ← statement fuel
      pure (.branch condition thenBranch (some elseBranch))
    else pure (.branch condition thenBranch none)

def whileStatement : Nat → Reader Stmt
  | 0 => exhausted
  | fuel + 1 => do
    let _ ← expect (·.isMark .leftParen) .whileStart
    let condition ← expression fuel
    let _ ← expect (·.isMark .rightParen) .whileConditionEnd
    let body ← statement fuel
    pure (.loop condition body)

end

/-- A declaration; one that departs from the grammar is reported and dropped. -/
def declaration (fuel : Nat) : Reader (Option Stmt) := recover (item fuel)

end Reader

end LoxLang
