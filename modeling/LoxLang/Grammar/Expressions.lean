import LoxLang.Grammar.Parse

namespace LoxLang

/-- The levels of binary operators, from the loosest. -/
inductive Level where
  | or
  | and
  | equality
  | comparison
  | term
  | factor
deriving DecidableEq, Repr

namespace Level

/-- The level of the operands; those of the last are unary expressions. -/
def tighter? : Level → Option Level
  | or => some and
  | and => some equality
  | equality => some comparison
  | comparison => some term
  | term => some factor
  | factor => none

def kinds : Level → List Token.Kind
  | or => [.keyword .or_]
  | and => [.keyword .and_]
  | equality => [.mark .bangEqual, .mark .equalEqual]
  | comparison => [.mark .greater, .mark .greaterEqual, .mark .less, .mark .lessEqual]
  | term => [.mark .minus, .mark .plus]
  | factor => [.mark .slash, .mark .star]

/-- The token is an operator of the level. -/
def isOperator (l : Level) (t : Token) : Bool := l.kinds.contains t.kind

def join (l : Level) (left : Expr) (operator : Token) (right : Expr) : Expr :=
  match l with
  | or => .logical left operator right
  | and => .logical left operator right
  | _ => .binary left operator right

end Level

/-- The most parameters of a function and arguments of a call. -/
def maxArity : Nat := 255

namespace Parse

def isUnaryOperator (t : Token) : Bool := t.isMark .bang || t.isMark .minus

/-- The literal that a token is on its own. -/
def literal? (t : Token) : Option Literal :=
  match t.kind with
  | .keyword .false_ => some (.bool false)
  | .keyword .true_ => some (.bool true)
  | .keyword .nil_ => some .nil
  | .number value => some (.number value)
  | .string text => some (.string text)
  | _ => none

/-- What an assignment makes of its left side. Only names and properties can be assigned; any other left side
is reported at the equals sign and stands for the whole. -/
def assignment (target : Expr) (equals : Token) (value : Expr) : Parse Expr :=
  match target with
  | .variable _ name => do
    let id ← freshId
    pure (.assign id name value)
  | .get object name => pure (.set object name value)
  | other => do
    report .assignmentTarget equals
    pure other

mutual

/-- Assignment binds loosest, then the ternary, then six levels of binary operators, which associate to the left, then
unary operators, calls and property accesses, and primaries. -/
def expression : Nat → Parse Expr
  | 0 => exhausted
  | fuel + 1 => do
    let target ← ternary fuel
    match ← accept? (·.isMark .equal) with
    | none => pure target
    | some equals =>
      let value ← expression fuel
      assignment target equals value

def ternary : Nat → Parse Expr
  | 0 => exhausted
  | fuel + 1 => do
    let condition ← binary fuel .or
    if ← accept (·.isMark .question) then
      let thenBranch ← ternary fuel
      let _ ← expect (·.isMark .colon) .ternaryColon
      let elseBranch ← ternary fuel
      pure (.ternary condition thenBranch elseBranch)
    else pure condition

/-- Operands of a level, joined by its operators. -/
def binary : Nat → Level → Parse Expr
  | 0, _ => exhausted
  | fuel + 1, level => do
    let left ← operand fuel level
    chain fuel level left

def operand : Nat → Level → Parse Expr
  | 0, _ => exhausted
  | fuel + 1, level =>
    match level.tighter? with
    | some tighter => binary fuel tighter
    | none => unary fuel

/-- Further operators of a level and their right sides, joined to what stands left of them. -/
def chain : Nat → Level → Expr → Parse Expr
  | 0, _, _ => exhausted
  | fuel + 1, level, left => do
    match ← accept? level.isOperator with
    | none => pure left
    | some operator =>
      let right ← operand fuel level
      chain fuel level (level.join left operator right)

def unary : Nat → Parse Expr
  | 0 => exhausted
  | fuel + 1 => do
    match ← accept? isUnaryOperator with
    | some operator =>
      let right ← unary fuel
      pure (.unary operator right)
    | none =>
      let callee ← primary fuel
      suffixes fuel callee

/-- Argument lists and property names after an expression. -/
def suffixes : Nat → Expr → Parse Expr
  | 0, _ => exhausted
  | fuel + 1, callee => do
    if ← accept (·.isMark .leftParen) then
      let given ← arguments fuel
      let paren ← expect (·.isMark .rightParen) .argumentsEnd
      suffixes fuel (.call callee paren given)
    else if ← accept (·.isMark .dot) then
      let name ← expect Token.isIdentifier .propertyName
      suffixes fuel (.get callee name)
    else pure callee

/-- The arguments before a closing parenthesis, possibly none. -/
def arguments : Nat → Parse (List Expr)
  | 0 => exhausted
  | fuel + 1 => do
    if ← next (·.isMark .rightParen) then pure []
    else argumentsFrom fuel 0

/-- At least one more argument, after `count` of them. -/
def argumentsFrom : Nat → Nat → Parse (List Expr)
  | 0, _ => exhausted
  | fuel + 1, count => do
    if maxArity ≤ count then
      report .tooManyArguments (← current)
    let first ← expression fuel
    if ← accept (·.isMark .comma) then
      let rest ← argumentsFrom fuel (count + 1)
      pure (first :: rest)
    else pure [first]

def primary : Nat → Parse Expr
  | 0 => exhausted
  | fuel + 1 => do
    match ← take? literal? with
    | some value => pure (.literal value)
    | none =>
      match ← accept? (·.isKeyword .this_) with
      | some keyword =>
        let id ← freshId
        pure (.this id keyword)
      | none =>
        match ← accept? Token.isIdentifier with
        | some name =>
          let id ← freshId
          pure (.variable id name)
        | none =>
          if ← accept (·.isMark .leftParen) then
            let inner ← expression fuel
            let _ ← expect (·.isMark .rightParen) .groupEnd
            pure (.group inner)
          else fail .expression

end

end Parse

end LoxLang
