import LoxLang.Grammar.Statements

namespace LoxLang.Grammar

/-- What one token of a rule has to be. -/
inductive Terminal where
  | mark (m : Mark)
  | keyword (k : Keyword)
  | identifier
  | number
  | string
deriving DecidableEq

def Terminal.Fits : Terminal → Token.Kind → Prop
  | mark m, kind => kind = .mark m
  | keyword k, kind => kind = .keyword k
  | identifier, kind => kind = .identifier
  | number, kind => ∃ value, kind = .number value
  | string, kind => ∃ text, kind = .string text

inductive Nonterminal where
  | program
  | declaration
  | classDecl
  | funDecl
  | function
  | parameters
  | varDecl
  | statement
  | exprStmt
  | printStmt
  | returnStmt
  | ifStmt
  | whileStmt
  | forStmt
  | breakStmt
  | block
  | expression
  | assignment
  | ternary
  | logicOr
  | logicAnd
  | equality
  | comparison
  | term
  | factor
  | unary
  | call
  | arguments
  | primary
deriving DecidableEq

/-- The right side of a rule. -/
inductive Ebnf where
  | token (t : Terminal)
  | rule (n : Nonterminal)
  | seq (a b : Ebnf)
  | alt (a b : Ebnf)
  | opt (a : Ebnf)
  | star (a : Ebnf)
  /-- Repeated at most so many times. -/
  | upTo (n : Nat) (a : Ebnf)

namespace Ebnf

/-- One after another. -/
def all : List Ebnf → Ebnf → Ebnf
  | [], last => last
  | a :: rest, last => .seq a (all rest last)

/-- One of several. -/
def any : List Ebnf → Ebnf → Ebnf
  | [], last => last
  | a :: rest, last => .alt a (any rest last)

def mark (m : Mark) : Ebnf := .token (.mark m)

def keyword (k : Keyword) : Ebnf := .token (.keyword k)

def ident : Ebnf := .token .identifier

end Ebnf

open Ebnf

/-- The operands of a level of operators, joined by them. -/
def level (operand operators : Ebnf) : Ebnf := .seq operand (.star (.seq operators operand))

/-- The grammar of the language in extended BNF, as data. Lists of parameters and of arguments are as long as the
language lets them be. -/
def rules : Nonterminal → Ebnf
  | .program => .star (.rule .declaration)
  | .declaration => any [.rule .classDecl, .rule .funDecl, .rule .varDecl] (.rule .statement)
  | .classDecl =>
    all [keyword .class_, ident, mark .leftBrace, .star (.rule .function)] (mark .rightBrace)
  | .funDecl => .seq (keyword .fun_) (.rule .function)
  | .function =>
    all [ident, mark .leftParen, .opt (.rule .parameters), mark .rightParen] (.rule .block)
  | .parameters => .seq ident (.upTo (maxArity - 1) (.seq (mark .comma) ident))
  | .varDecl =>
    all [keyword .var_, ident, .opt (.seq (mark .equal) (.rule .expression))] (mark .semicolon)
  | .statement =>
    any [.rule .exprStmt, .rule .printStmt, .rule .returnStmt, .rule .ifStmt, .rule .whileStmt,
      .rule .forStmt, .rule .breakStmt] (.rule .block)
  | .exprStmt => .seq (.rule .expression) (mark .semicolon)
  | .printStmt => all [keyword .print_, .rule .expression] (mark .semicolon)
  | .returnStmt => all [keyword .return_, .opt (.rule .expression)] (mark .semicolon)
  | .ifStmt =>
    all [keyword .if_, mark .leftParen, .rule .expression, mark .rightParen, .rule .statement]
      (.opt (.seq (keyword .else_) (.rule .statement)))
  | .whileStmt =>
    all [keyword .while_, mark .leftParen, .rule .expression, mark .rightParen] (.rule .statement)
  | .forStmt =>
    all [keyword .for_, mark .leftParen, any [.rule .varDecl, .rule .exprStmt] (mark .semicolon),
      .opt (.rule .expression), mark .semicolon, .opt (.rule .expression), mark .rightParen]
      (.rule .statement)
  | .breakStmt => .seq (keyword .break_) (mark .semicolon)
  | .block => all [mark .leftBrace, .star (.rule .declaration)] (mark .rightBrace)
  | .expression => .rule .assignment
  | .assignment =>
    .alt
      (all [.alt (all [.rule .call, mark .dot] ident) ident, mark .equal] (.rule .assignment))
      (.rule .ternary)
  | .ternary =>
    .seq (.rule .logicOr)
      (.opt (all [mark .question, .rule .ternary, mark .colon] (.rule .ternary)))
  | .logicOr => level (.rule .logicAnd) (keyword .or_)
  | .logicAnd => level (.rule .equality) (keyword .and_)
  | .equality => level (.rule .comparison) (.alt (mark .bangEqual) (mark .equalEqual))
  | .comparison =>
    level (.rule .term) (any [mark .greater, mark .greaterEqual, mark .less] (mark .lessEqual))
  | .term => level (.rule .factor) (.alt (mark .minus) (mark .plus))
  | .factor => level (.rule .unary) (.alt (mark .slash) (mark .star))
  | .unary => .alt (.seq (.alt (mark .bang) (mark .minus)) (.rule .unary)) (.rule .call)
  | .call =>
    .seq (.rule .primary) (.star (.alt
      (all [mark .leftParen, .opt (.rule .arguments)] (mark .rightParen))
      (.seq (mark .dot) ident)))
  | .arguments =>
    .seq (.rule .expression) (.upTo (maxArity - 1) (.seq (mark .comma) (.rule .expression)))
  | .primary =>
    any [keyword .true_, keyword .false_, keyword .nil_, keyword .this_, .token .number,
      .token .string, ident] (all [mark .leftParen, .rule .expression] (mark .rightParen))

/-- The token lists that follow the right side of a rule. Nothing is said here of how tokens are read or which tree they
make: a dangling `else` may go with any `if` that is open. -/
inductive Derives : Ebnf → List Token → Prop
  | token {t : Terminal} {x : Token} : t.Fits x.kind → Derives (.token t) [x]
  | rule {n : Nonterminal} {w : List Token} : Derives (rules n) w → Derives (.rule n) w
  | seq {a b : Ebnf} {v w : List Token} : Derives a v → Derives b w → Derives (.seq a b) (v ++ w)
  | altLeft {a b : Ebnf} {w : List Token} : Derives a w → Derives (.alt a b) w
  | altRight {a b : Ebnf} {w : List Token} : Derives b w → Derives (.alt a b) w
  | optNone {a : Ebnf} : Derives (.opt a) []
  | optSome {a : Ebnf} {w : List Token} : Derives a w → Derives (.opt a) w
  | starNil {a : Ebnf} : Derives (.star a) []
  | starCons {a : Ebnf} {v w : List Token} :
    Derives a v → Derives (.star a) w → Derives (.star a) (v ++ w)
  | upToNil {n : Nat} {a : Ebnf} : Derives (.upTo n a) []
  | upToCons {n : Nat} {a : Ebnf} {v w : List Token} :
    Derives a v → Derives (.upTo n a) w → Derives (.upTo (n + 1) a) (v ++ w)

end LoxLang.Grammar
