import LoxLang.Tree.Basic

namespace LoxLang

inductive Occurrence.Form where
  | variable
  | assign
  | this
deriving DecidableEq, Repr

/-- An occurrence of a name in a tree. Declared names and parameters are not among them. -/
structure Occurrence where
  form : Occurrence.Form
  id : OccurrenceId
  token : Token
deriving DecidableEq, Repr

mutual

/-- In the order of the nodes: an assignment before its value, the object of a property before the value it is given. -/
def Expr.occurrences : Expr → List Occurrence
  | .literal _ => []
  | .group inner => inner.occurrences
  | .unary _ operand => operand.occurrences
  | .binary left _ right => left.occurrences ++ right.occurrences
  | .logical left _ right => left.occurrences ++ right.occurrences
  | .ternary condition thenBranch elseBranch =>
    condition.occurrences ++ thenBranch.occurrences ++ elseBranch.occurrences
  | .variable id name => [⟨.variable, id, name⟩]
  | .assign id name value => ⟨.assign, id, name⟩ :: value.occurrences
  | .this id keyword => [⟨.this, id, keyword⟩]
  | .call callee _ arguments => callee.occurrences ++ Expr.occurrencesAll arguments
  | .get object _ => object.occurrences
  | .set object _ value => object.occurrences ++ value.occurrences

def Expr.occurrencesAll : List Expr → List Occurrence
  | [] => []
  | e :: es => e.occurrences ++ Expr.occurrencesAll es

end

mutual

def Stmt.occurrences : Stmt → List Occurrence
  | .expression value => value.occurrences
  | .print value => value.occurrences
  | .var _ none => []
  | .var _ (some value) => value.occurrences
  | .block body => Stmt.occurrencesAll body
  | .branch condition thenBranch none => condition.occurrences ++ thenBranch.occurrences
  | .branch condition thenBranch (some elseBranch) =>
    condition.occurrences ++ thenBranch.occurrences ++ elseBranch.occurrences
  | .loop condition body => condition.occurrences ++ body.occurrences
  | .break _ => []
  | .return _ none => []
  | .return _ (some value) => value.occurrences
  | .function declaration => declaration.occurrences
  | .class _ methods => Function.occurrencesAll methods

def Stmt.occurrencesAll : List Stmt → List Occurrence
  | [] => []
  | s :: ss => s.occurrences ++ Stmt.occurrencesAll ss

def Function.occurrences : Function → List Occurrence
  | .mk _ _ body => Stmt.occurrencesAll body

def Function.occurrencesAll : List Function → List Occurrence
  | [] => []
  | f :: fs => f.occurrences ++ Function.occurrencesAll fs

end

end LoxLang
