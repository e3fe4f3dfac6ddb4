import LoxLang.Tree.Basic
import LoxLang.NameMap

namespace LoxLang

abbrev ScopeId := Nat

/-- The identity of a function, a class or an instance. -/
abbrev ObjectId := Nat

/-- A declared function together with the scope in which it was declared. -/
structure Closure where
  id : ObjectId
  declaration : Function
  scope : ScopeId
  /-- It is the method that runs when its class is called. -/
  initializes : Bool

namespace Closure

def name (f : Closure) : String := f.declaration.name.lexeme

def arity (f : Closure) : Nat := f.declaration.parameters.length

end Closure

structure Class where
  id : ObjectId
  name : String
  methods : NameMap Closure

namespace Class

def initializer? (c : Class) : Option Closure := c.methods.find? "init"

/-- A class takes the arguments of its initializer. -/
def arity (c : Class) : Nat := (c.initializer?.map Closure.arity).getD 0

end Class

/-- Functions that are there from the start. -/
inductive Native where
  /-- The time in seconds. -/
  | clock
deriving DecidableEq, Repr

def Native.name : Native → String
  | clock => "clock"

def Native.arity : Native → Nat
  | clock => 0

/-- What expressions come to. Functions, classes and instances are objects: each has an identity, and only that makes
two of them equal. -/
inductive Value where
  | nil
  | bool (value : Bool)
  | number (value : Number)
  | string (text : String)
  | native (function : Native)
  | function (closure : Closure)
  | class (cls : Class)
  | instance (id : ObjectId) (cls : Class)

def Literal.value : Literal → Value
  | number value => .number value
  | string text => .string text
  | bool value => .bool value
  | nil => .nil

namespace Value

/-- A value as a program prints it. -/
def display : Value → String
  | nil => "nil"
  | bool true => "true"
  | bool false => "false"
  | number value => String.ofList value.display
  | string text => text
  | native _ => "<native fn>"
  | function f => "<fn " ++ f.name ++ ">"
  | .class c => "<class " ++ c.name ++ ">"
  | .instance _ c => "<instance " ++ c.name ++ ">"

/-- Only `nil` and `false` count as false. -/
def isTruthy : Value → Bool
  | nil => false
  | bool value => value
  | _ => true

def equals : Value → Value → Bool
  | nil, nil => true
  | bool a, bool b => a == b
  | number a, number b => a.equals b
  | string a, string b => a == b
  | native a, native b => a == b
  | function a, function b => a.id == b.id
  | .class a, .class b => a.id == b.id
  | .instance a _, .instance b _ => a == b
  | _, _ => false

end Value

end LoxLang
