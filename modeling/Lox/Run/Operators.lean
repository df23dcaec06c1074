import Lox.Run.Basic

/-!
The operators on values. Each gives a value or the fault that its operands are.
-/

set_option autoImplicit false

namespace Lox.Value

/-- An operator before its operand. -/
def unary (operator : Token) (v : Value) : Except Fault Value :=
  match operator.kind, v with
  | .bang, v => .ok (.bool !v.isTruthy)
  | .minus, .number x => .ok (.number (-x))
  | .minus, _ => .error .operandNoNumber
  | _, _ => .error (.unknownUnary operator.lexeme)

/-- The operators on two numbers. -/
def arithmetic (operator : Token) (x y : Float) : Except Fault Value :=
  match operator.kind with
  | .minus => .ok (.number (x - y))
  | .star => .ok (.number (x * y))
  | .slash => .ok (.number (x / y))
  | .less => .ok (.bool (x < y))
  | .lessEqual => .ok (.bool (x ≤ y))
  | .greater => .ok (.bool (y < x))
  | .greaterEqual => .ok (.bool (y ≤ x))
  | _ => .error (.unknownBinary operator.lexeme)

/-- An operator between its operands. Equality takes any two, addition two numbers or two texts, and
all others take numbers. -/
def binary (operator : Token) (a b : Value) : Except Fault Value :=
  match operator.kind with
  | .equalEqual => .ok (.bool (a.equals b))
  | .bangEqual => .ok (.bool !a.equals b)
  | .plus =>
    match a, b with
    | .number x, .number y => .ok (.number (x + y))
    | .text s, .text t => .ok (.text (s ++ t))
    | _, _ => .error .operandsNotAlike
  | _ =>
    match a, b with
    | .number x, .number y => arithmetic operator x y
    | _, _ => .error .operandsNoNumbers

/-- The value that a literal's token stands for. -/
def literal (t : Token) : Except Fault Value :=
  match t.kind with
  | .number => .ok (.ofJson t.literal)
  | .string => .ok (.ofJson t.literal)
  | .trueWord => .ok (.bool true)
  | .falseWord => .ok (.bool false)
  | .nilWord => .ok .nil
  | _ => .error (.unknownLiteral t.lexeme)

end Lox.Value
