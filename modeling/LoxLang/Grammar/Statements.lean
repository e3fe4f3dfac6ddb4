import LoxLang.Grammar.Expressions

namespace LoxLang

/-- The loop that a `for` statement stands for. The initializer gets a scope around the loop, and the
increment follows the body inside it; without them the scopes are left out too. -/
def Stmt.forLoop (initializer : Option Stmt) (condition increment : Option Expr) (body : Stmt) : Stmt :=
  let body := match increment with
    | some increment => .block [body, .expression increment]
    | none => body
  let loop := .loop (condition.getD (.literal (.bool true))) body
  match initializer with
  | some initializer => .block [initializer, loop]
  | none => loop

namespace Parse

/-- The words with which reading resumes after an error. -/
def startsStatement (t : Token) : Bool :=
  match t.kind with
  | .keyword k => [.class_, .fun_, .var_, .for_, .if_, .while_, .print_, .return_].contains k
  | _ => false

/-- The tokens from which reading resumes: one token is always skipped, and then all up to a semicolon, which
is skipped too, or to a word that starts a statement. -/
def resume : List Token → List Token
  | [] => []
  | t :: rest => if t.isMark .semicolon || rest.head?.any startsStatement then rest else resume rest

/-- Report what stops a reader, and resume. What departed from the grammar is dropped. -/
def recover (x : Parse Stmt) : Parse (Option Stmt) := fun s =>
  match x s with
  | .done stmt s => .done (some stmt) s
  | .failed e s => .done none { s with tokens := resume s.tokens, errors := s.errors.push e }
  | .exhausted => .exhausted

/-- At least one more parameter, after `count` of them. -/
def parametersFrom : Nat → Nat → Parse (List Token)
  | 0, _ => exhausted
  | fuel + 1, count => do
    if maxArity ≤ count then
      report .tooManyParameters (← current)
    let first ← expect Token.isIdentifier .parameterName
    if ← accept (·.isMark .comma) then
      let rest ← parametersFrom fuel (count + 1)
      pure (first :: rest)
    else pure [first]

/-- The parameters before a closing parenthesis, possibly none. -/
def parameters (fuel : Nat) : Parse (List Token) := do
  if ← next (·.isMark .rightParen) then pure []
  else parametersFrom fuel 0

/-- An expression, unless a token of the given kind follows at once. -/
def expressionUnless (fuel : Nat) (p : Token → Bool) : Parse (Option Expr) := do
  if ← next p then pure none
  else some <$> expression fuel

def varDeclaration (fuel : Nat) : Parse Stmt := do
  let name ← expect Token.isIdentifier .variableName
  if ← accept (·.isMark .equal) then
    let value ← expression fuel
    let _ ← expect (·.isMark .semicolon) .variableEnd
    pure (.var name (some value))
  else
    let _ ← expect (·.isMark .semicolon) .variableEnd
    pure (.var name none)

def expressionStatement (fuel : Nat) : Parse Stmt := do
  let value ← expression fuel
  let _ ← expect (·.isMark .semicolon) .expressionEnd
  pure (.expression value)

def printStatement (fuel : Nat) : Parse Stmt := do
  let value ← expression fuel
  let _ ← expect (·.isMark .semicolon) .printEnd
  pure (.print value)

def returnStatement (fuel : Nat) (keyword : Token) : Parse Stmt := do
  let value ← expressionUnless fuel (·.isMark .semicolon)
  let _ ← expect (·.isMark .semicolon) .returnEnd
  pure (.return keyword value)

def breakStatement (keyword : Token) : Parse Stmt := do
  let _ ← expect (·.isMark .semicolon) .breakEnd
  pure (.break keyword)

/-- The first clause of a `for`, with its semicolon. -/
def forInitializer (fuel : Nat) : Parse (Option Stmt) := do
  if ← accept (·.isMark .semicolon) then pure none
  else if ← accept (·.isKeyword .var_) then some <$> varDeclaration fuel
  else some <$> expressionStatement fuel

mutual

/-- Declarations up to the end of the source or, in a block, up to its closing brace. -/
def declarations : Nat → Bool → Parse (List Stmt)
  | 0, _ => exhausted
  | fuel + 1, inBlock => do
    if ← atEnd inBlock then pure []
    else
      let first ← recover (declaration fuel)
      let rest ← declarations fuel inBlock
      pure (first.toList ++ rest)

def declaration : Nat → Parse Stmt
  | 0 => exhausted
  | fuel + 1 => do
    if ← accept (·.isKeyword .class_) then classDeclaration fuel
    else if ← accept (·.isKeyword .fun_) then .function <$> function fuel .function
    else if ← accept (·.isKeyword .var_) then varDeclaration fuel
    else statement fuel

def classDeclaration : Nat → Parse Stmt
  | 0 => exhausted
  | fuel + 1 => do
    let name ← expect Token.isIdentifier .className
    let _ ← expect (·.isMark .leftBrace) .classBodyStart
    let declared ← methods fuel
    let _ ← expect (·.isMark .rightBrace) .classBodyEnd
    pure (.class name declared)

/-- Methods up to a closing brace or the end of the source. -/
def methods : Nat → Parse (List Function)
  | 0 => exhausted
  | fuel + 1 => do
    if ← atEnd true then pure []
    else
      let first ← function fuel .method
      let rest ← methods fuel
      pure (first :: rest)

def function : Nat → Callable → Parse Function
  | 0, _ => exhausted
  | fuel + 1, callable => do
    let name ← expect Token.isIdentifier (.callableName callable)
    let _ ← expect (·.isMark .leftParen) (.parametersStart callable)
    let declared ← parameters fuel
    let _ ← expect (·.isMark .rightParen) .parametersEnd
    let _ ← expect (·.isMark .leftBrace) (.bodyStart callable)
    let body ← block fuel
    pure (.mk name declared body)

/-- The rest of a block, its opening brace consumed. -/
def block : Nat → Parse (List Stmt)
  | 0 => exhausted
  | fuel + 1 => do
    let body ← declarations fuel true
    let _ ← expect (·.isMark .rightBrace) .blockEnd
    pure body

def statement : Nat → Parse Stmt
  | 0 => exhausted
  | fuel + 1 => do
    if ← accept (·.isKeyword .for_) then forStatement fuel
    else if ← accept (·.isKeyword .if_) then ifStatement fuel
    else if ← accept (·.isKeyword .print_) then printStatement fuel
    else
      match ← accept? (·.isKeyword .return_) with
      | some keyword => returnStatement fuel keyword
      | none =>
        if ← accept (·.isKeyword .while_) then whileStatement fuel
        else
          match ← accept? (·.isKeyword .break_) with
          | some keyword => breakStatement keyword
          | none =>
            if ← accept (·.isMark .leftBrace) then .block <$> block fuel
            else expressionStatement fuel

def forStatement : Nat → Parse Stmt
  | 0 => exhausted
  | fuel + 1 => do
    let _ ← expect (·.isMark .leftParen) .forStart
    let initializer ← forInitializer fuel
    let condition ← expressionUnless fuel (·.isMark .semicolon)
    let _ ← expect (·.isMark .semicolon) .loopConditionEnd
    let increment ← expressionUnless fuel (·.isMark .rightParen)
    let _ ← expect (·.isMark .rightParen) .forClausesEnd
    let body ← statement fuel
    pure (.forLoop initializer condition increment body)

def ifStatement : Nat → Parse Stmt
  | 0 => exhausted
  | fuel + 1 => do
    let _ ← expect (·.isMark .leftParen) .ifStart
    let condition ← expression fuel
    let _ ← expect (·.isMark .rightParen) .ifConditionEnd
    let thenBranch ← statement fuel
    if ← accept (·.isKeyword .else_) then
      let elseBranch ← statement fuel
      pure (.branch condition thenBranch (some elseBranch))
    else pure (.branch condition thenBranch none)

def whileStatement : Nat → Parse Stmt
  | 0 => exhausted
  | fuel + 1 => do
    let _ ← expect (·.isMark .leftParen) .whileStart
    let condition ← expression fuel
    let _ ← expect (·.isMark .rightParen) .whileConditionEnd
    let body ← statement fuel
    pure (.loop condition body)

end

end Parse

/-- What reading a token list yields: the declarations that follow the grammar, the errors in the order in which
they were met, and the first identity not given out. -/
structure Parsed where
  statements : List Stmt
  errors : List SyntaxError
  nextId : OccurrenceId

namespace Parsed

/-- The tokens before the end of the source and the token that marks it. A list without one ends on the line of
its last token. -/
def splitAtFinish (tokens : List Token) : List Token × Token :=
  match tokens.dropWhile (·.kind != .finish) with
  | finish :: _ => (tokens.takeWhile (·.kind != .finish), finish)
  | [] => (tokens, ⟨.finish, "", (tokens.getLast?.map Token.line).getD 1⟩)

/-- Enough fuel for a token list: readers call each other less than 32 times between two tokens. -/
def fuelFor (tokens : List Token) : Nat := 32 * (tokens.length + 1)

/-- Read a program; identities are given out from `nextId` on. Declarations at the top level report what stops
them, and with enough fuel none is left out, so that reading always comes to an end with the first outcome. -/
def ofTokens (tokens : List Token) (nextId : OccurrenceId) : Parsed :=
  let (before, finish) := splitAtFinish tokens
  match Parse.declarations (fuelFor before) false ⟨before, finish, #[], nextId⟩ with
  | .done statements s => ⟨statements, s.errors.toList, s.nextId⟩
  | .failed e s => ⟨[], (s.errors.push e).toList, s.nextId⟩
  | .exhausted => ⟨[], [], nextId⟩

end Parsed

end LoxLang
