import LoxLang.Value
import LoxLang.Diagnostic

namespace LoxLang.Value

/-- The value of a unary operator, which is known by its kind of token. -/
def unary (operator : Token.Kind) (operand : Value) : Except RuntimeError.Cause Value :=
  match operator with
  | .mark .minus =>
    match operand with
    | number x => .ok (number x.neg)
    | _ => .error .operandNotNumber
  | .mark .bang => .ok (bool (!operand.isTruthy))
  | _ => .error .unknownUnaryOperator

/-- Numbers are added; if one side is a string, the texts of both sides are joined. -/
def add (left right : Value) : Except RuntimeError.Cause Value :=
  match left, right with
  | number x, number y => .ok (number (x.add y))
  | string a, right => .ok (string (a ++ right.display))
  | left, string b => .ok (string (left.display ++ b))
  | _, _ => .error .operandsNotAddable

/-- Operators that are defined on numbers only. -/
def arithmetic (operator : Token.Kind) (x y : Number) : Except RuntimeError.Cause Value :=
  match operator with
  | .mark .minus => .ok (number (x.sub y))
  | .mark .star => .ok (number (x.mul y))
  | .mark .slash => if y.isZero then .error .divisionByZero else .ok (number (x.div y))
  | .mark .greater => .ok (bool (y.less x))
  | .mark .greaterEqual => .ok (bool (y.lessEqual x))
  | .mark .less => .ok (bool (x.less y))
  | .mark .lessEqual => .ok (bool (x.lessEqual y))
  | _ => .error .unknownBinaryOperator

/-- The value of a binary operator. That the operands are numbers is checked before the operator is. -/
def binary (operator : Token.Kind) (left right : Value) : Except RuntimeError.Cause Value :=
  match operator with
  | .mark .equalEqual => .ok (bool (left.equals right))
  | .mark .bangEqual => .ok (bool (!left.equals right))
  | .mark .plus => left.add right
  | operator =>
    match left, right with
    | number x, number y => arithmetic operator x y
    | _, _ => .error .operandsNotNumbers

end LoxLang.Value
