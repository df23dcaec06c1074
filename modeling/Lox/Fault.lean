import Lox.Token.Basic

/-!
What can go wrong in a program that runs. A fault is the cause; `Fault.message` has all the wording.
-/

set_option autoImplicit false

namespace Lox

/-- What can go wrong in a program. -/
inductive Fault where
  | undefinedVariable (name : Json)
  | operandNoNumber
  | operandsNoNumbers
  | operandsNotAlike
  | notCallable
  | wrongCount (expected given : Nat)
  | stackOverflow
  | unknownUnary (operator : Json)
  | unknownBinary (operator : Json)
  | unknownLiteral (literal : Json)
  deriving Repr

def Fault.message : Fault → String
  | .undefinedVariable name => "Undefined variable '" ++ name.shown ++ "'"
  | .operandNoNumber => "Operand must be a number"
  | .operandsNoNumbers => "Operands must be numbers"
  | .operandsNotAlike => "Operands must be two numbers or two strings"
  | .notCallable => "Can only call functions and classes"
  | .wrongCount expected given =>
    "Expected " ++ toString expected ++ " arguments but got " ++ toString given
  | .stackOverflow => "Stack overflow"
  | .unknownUnary operator => "Unsupported unary operator " ++ operator.shown
  | .unknownBinary operator => "Unknown operator " ++ operator.shown
  | .unknownLiteral literal => "Unexpected literal '" ++ literal.shown ++ "'"

structure RuntimeError where
  line : Int
  fault : Fault
  deriving Repr

def RuntimeError.render (e : RuntimeError) : String :=
  e.fault.message ++ ".\n[line " ++ toString e.line ++ "]"

end Lox
