import LoxLang.Token.Basic

namespace LoxLang

namespace LexicalError

inductive Cause where
  | unexpectedCharacter
  | unterminatedString
  | unterminatedComment
deriving DecidableEq, Repr

def Cause.text : Cause → String
  | unexpectedCharacter => "Unexpected character."
  | unterminatedString => "Unterminated string."
  | unterminatedComment => "Unterminated block comment."

end LexicalError

/-- An error in the source text itself. -/
structure LexicalError where
  cause : LexicalError.Cause
  line : Nat
deriving DecidableEq, Repr

def LexicalError.message (e : LexicalError) : String :=
  "[line " ++ toString e.line ++ "] Error: " ++ e.cause.text

/-- The two kinds of declaration with parameters and a body. -/
inductive Callable where
  | function
  | method
deriving DecidableEq, Repr

def Callable.name : Callable → String
  | function => "function"
  | method => "method"

namespace SyntaxError

/-- What the grammar asks for at the token where a text departs from it, and the three conditions that the
grammar alone does not state. -/
inductive Cause where
  | className
  | classBodyStart
  | classBodyEnd
  | callableName (callable : Callable)
  | parametersStart (callable : Callable)
  | parameterName
  | parametersEnd
  | bodyStart (callable : Callable)
  | variableName
  | variableEnd
  | forStart
  | loopConditionEnd
  | forClausesEnd
  | ifStart
  | ifConditionEnd
  | printEnd
  | returnEnd
  | whileStart
  | whileConditionEnd
  | breakEnd
  | expressionEnd
  | blockEnd
  | ternaryColon
  | propertyName
  | argumentsEnd
  | groupEnd
  | expression
  | tooManyParameters
  | tooManyArguments
  | assignmentTarget
deriving DecidableEq, Repr

def Cause.text : Cause → String
  | className => "Expect class name."
  | classBodyStart => "Expect '\x7b' before class body."
  | classBodyEnd => "Expect '\x7d' after class body."
  | callableName c => "Expect " ++ c.name ++ " name."
  | parametersStart c => "Expect '(' after " ++ c.name ++ " name."
  | parameterName => "Expect parameter name."
  | parametersEnd => "Expect ')' after parameters."
  | bodyStart c => "Expect '\x7b' before " ++ c.name ++ " body."
  | variableName => "Expect variable name."
  | variableEnd => "Expect ';' after variable declaration."
  | forStart => "Expect '(' after 'for'."
  | loopConditionEnd => "Expect ';' after loop condition."
  | forClausesEnd => "Expect ')' after for clauses."
  | ifStart => "Expect '(' after 'if'."
  | ifConditionEnd => "Expect ')' after if condition."
  | printEnd => "Expect ';' after value."
  | returnEnd => "Expect ';' after return value."
  | whileStart => "Expect '(' after 'while'."
  | whileConditionEnd => "Expect ')' after while condition."
  | breakEnd => "Expect ';' after 'break'."
  | expressionEnd => "Expect ';' after expression."
  | blockEnd => "Expect '\x7d' after block."
  | ternaryColon => "Expect ':' after then branch of ternary expression."
  | propertyName => "Expect property name after '.'."
  | argumentsEnd => "Expect ')' after arguments."
  | groupEnd => "Expect ')' after expression."
  | expression => "Expect expression."
  | tooManyParameters => "Can't have more than 255 parameters."
  | tooManyArguments => "Can't have more than 255 arguments."
  | assignmentTarget => "Invalid assignment target."

end SyntaxError

/-- A departure from the grammar, reported at a token. -/
structure SyntaxError where
  cause : SyntaxError.Cause
  token : Token
deriving DecidableEq, Repr

namespace BindingError

inductive Cause where
  | redeclared
  | readInInitializer
  | returnAtTopLevel
  | returnFromInitializer
  | thisOutsideClass
deriving DecidableEq, Repr

def Cause.text : Cause → String
  | redeclared => "Variable with this name is already in this scope."
  | readInInitializer => "Can't read local variable in its own initializer."
  | returnAtTopLevel => "Can't return from top-level code."
  | returnFromInitializer => "Can't return a value from an initializer."
  | thisOutsideClass => "Can't use 'this' outside of a class."

end BindingError

/-- A breach of the rules on names, `return` and `this`, reported at a token. -/
structure BindingError where
  cause : BindingError.Cause
  token : Token
deriving DecidableEq, Repr

/-- An error text with the place of a token: its line, and its lexeme unless it is the end of the source. -/
def Token.report (t : Token) (text : String) : String :=
  let place := if t.kind = .finish then " at end" else " at '" ++ t.lexeme ++ "'"
  "[line " ++ toString t.line ++ "] Error" ++ place ++ ": " ++ text

def SyntaxError.message (e : SyntaxError) : String := e.token.report e.cause.text

def BindingError.message (e : BindingError) : String := e.token.report e.cause.text

namespace RuntimeError

inductive Cause where
  | breakOutsideLoop
  | operandNotNumber
  | unknownUnaryOperator
  | operandsNotNumbers
  | operandsNotAddable
  | divisionByZero
  | unknownBinaryOperator
  | notCallable
  | noProperties
  | noFields
  | undefinedProperty (name : String)
  | wrongArgumentCount (expected given : Nat)
  | stackOverflow
  | undefinedVariable (name : String)
  | uninitializedVariable (name : String)
deriving DecidableEq, Repr

def Cause.text : Cause → String
  | breakOutsideLoop => "Break occurred outside loop."
  | operandNotNumber => "Operand must be a number."
  | unknownUnaryOperator => "Invalid unary operator."
  | operandsNotNumbers => "Operands must be numbers."
  | operandsNotAddable => "Operands must be two numbers or at least one string."
  | divisionByZero => "Division by zero"
  | unknownBinaryOperator => "Invalid binary operator."
  | notCallable => "Can only call functions and classes."
  | noProperties => "Only instances have properties."
  | noFields => "Only instances have fields."
  | undefinedProperty name => "Undefined property '" ++ name ++ "'."
  | wrongArgumentCount expected given =>
    "Expected " ++ toString expected ++ " arguments but got " ++ toString given ++ "."
  | stackOverflow => "Stack overflow."
  | undefinedVariable name => "Undefined variable '" ++ name ++ "'."
  | uninitializedVariable name => "Variable not yet initialized '" ++ name ++ "'."

end RuntimeError

/-- An error that ends a run, reported by the line of a token. -/
structure RuntimeError where
  cause : RuntimeError.Cause
  line : Nat
deriving DecidableEq, Repr

def RuntimeError.message (e : RuntimeError) : String :=
  e.cause.text ++ "\n[line " ++ toString e.line ++ "]"

/-- An error of any phase. -/
inductive Diagnostic where
  | lexical (error : LexicalError)
  | grammar (error : SyntaxError)
  | binding (error : BindingError)
  | runtime (error : RuntimeError)
deriving DecidableEq, Repr

namespace Diagnostic

def message : Diagnostic → String
  | lexical e => e.message
  | grammar e => e.message
  | binding e => e.message
  | runtime e => e.message

/-- Found before anything runs. -/
def isStatic : Diagnostic → Bool
  | runtime _ => false
  | _ => true

end Diagnostic

end LoxLang
