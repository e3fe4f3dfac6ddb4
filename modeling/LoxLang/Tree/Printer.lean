import LoxLang.Tree.Basic

namespace LoxLang

/-- The parts of a node, separated by blanks, in parentheses. Every node but names and literals is shown so, its head
first. -/
def node (parts : List String) : String := "(" ++ " ".intercalate parts ++ ")"

def Literal.render : Literal → String
  | number value => String.ofList value.treeText
  | string text => text
  | bool true => "true"
  | bool false => "false"
  | nil => "nil"

mutual

def Expr.render : Expr → String
  | .literal value => value.render
  | .group inner => node ["group", inner.render]
  | .unary operator operand => node [operator.lexeme, operand.render]
  | .binary left operator right => node [operator.lexeme, left.render, right.render]
  | .logical left operator right => node [operator.lexeme, left.render, right.render]
  | .ternary condition thenBranch elseBranch =>
    node ["?:", condition.render, thenBranch.render, elseBranch.render]
  | .variable _ name => name.lexeme
  | .assign _ name value => node ["=", name.lexeme, value.render]
  | .this _ _ => "this"
  | .call callee _ arguments => node ("call" :: callee.render :: Expr.renderAll arguments)
  | .get object name => node [".", object.render, name.lexeme]
  | .set object name value => node ["=", node [".", object.render, name.lexeme], value.render]

def Expr.renderAll : List Expr → List String
  | [] => []
  | e :: es => e.render :: Expr.renderAll es

end

mutual

def Stmt.render : Stmt → String
  | .expression value => node [";", value.render]
  | .print value => node ["print", value.render]
  | .var name none => node ["var", name.lexeme]
  | .var name (some value) => node ["var", name.lexeme, value.render]
  | .block body => node ("block" :: Stmt.renderAll body)
  | .branch condition thenBranch none => node ["if", condition.render, thenBranch.render]
  | .branch condition thenBranch (some elseBranch) =>
    node ["if-else", condition.render, thenBranch.render, elseBranch.render]
  | .loop condition body => node ["while", condition.render, body.render]
  | .break _ => node ["break"]
  | .return _ none => node ["return"]
  | .return _ (some value) => node ["return", value.render]
  | .function declaration => declaration.render "fun"
  | .class name methods => node ("class" :: name.lexeme :: Function.renderAll methods)

def Stmt.renderAll : List Stmt → List String
  | [] => []
  | s :: ss => s.render :: Stmt.renderAll ss

/-- The parameters stand in parentheses right after the name. -/
def Function.render (head : String) : Function → String
  | .mk name parameters body =>
    node (head :: (name.lexeme ++ node (parameters.map Token.lexeme)) :: Stmt.renderAll body)

def Function.renderAll : List Function → List String
  | [] => []
  | f :: fs => f.render "method" :: Function.renderAll fs

end

end LoxLang
