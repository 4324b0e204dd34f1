import LoxLang.Machine.RuntimeError
import LoxLang.Machine.Value

/-! # Operators

The values of signs and binary operators, given those of their operands. -/

namespace LoxLang
namespace Value

/-- A binary operator on two numbers. -/
def arithmetic (op : Token) (x y : Float) : Except RuntimeError Value :=
  match op.kind with
  | .minus => .ok (number (x - y))
  | .star => .ok (number (x * y))
  | .slash => if y == 0 then .error ⟨.divisionByZero, op⟩ else .ok (number (x / y))
  | .greater => .ok (bool (x > y))
  | .greaterEqual => .ok (bool (x ≥ y))
  | .less => .ok (bool (x < y))
  | .lessEqual => .ok (bool (x ≤ y))
  | _ => .error ⟨.unknownOperator op.lexeme, op⟩

/-- The sum of two numbers, or two strings one behind the other. -/
def plus (op : Token) : Value → Value → Except RuntimeError Value
  | datum (.number x), datum (.number y) => .ok (number (x + y))
  | datum (.text s), datum (.text t) => .ok (datum (.text (s ++ t)))
  | _, _ => .error ⟨.operandsNotAddable, op⟩

/-- A binary operator. All values can be compared for equality; an operator of no known kind
still asks for two numbers first. -/
def binary (op : Token) (left right : Value) : Except RuntimeError Value :=
  match op.kind with
  | .equalEqual => .ok (bool (left.equal right))
  | .bangEqual => .ok (bool (!left.equal right))
  | .plus => plus op left right
  | _ =>
    match left, right with
    | datum (.number x), datum (.number y) => arithmetic op x y
    | _, _ => .error ⟨.operandsNotNumbers, op⟩

/-- An operator before its operand. Any but the exclamation mark negates. -/
def unary (op : Token) (operand : Value) : Except RuntimeError Value :=
  if op.kind = .bang then .ok (bool (!operand.isTruthy))
  else
    match operand with
    | datum (.number x) => .ok (number (-x))
    | _ => .error ⟨.operandNotNumber, op⟩

end Value
end LoxLang
