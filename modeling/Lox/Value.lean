import Lox.Environment
import Lox.Node.Basic

/-!
Values: what expressions give and variables hold. Data that is neither nil, boolean, number nor text
comes only from the literals of loaded trees.
-/

set_option autoImplicit false

namespace Lox

/-- A function of a program: its declaration and the environment that it was declared in. -/
structure Closure where
  name : Token
  params : List Node
  body : Node
  environment : Environment
  deriving Repr, Inhabited

inductive Value where
  | nil
  | bool (b : Bool)
  | number (x : Float)
  | text (s : String)
  | function (f : Closure)
  | builtin (name : String)
  | data (j : Json)
  deriving Repr, Inhabited

namespace Value

/-- The value of a literal. -/
def ofJson : Json → Value
  | .bool b => .bool b
  | .real x => .number x
  | .text s => .text s
  | j => .data j

/-- Only nil and false are not truthy. -/
def isTruthy : Value → Bool
  | .nil => false
  | .bool b => b
  | _ => true

/-- Values of two kinds are never equal, and no function equals anything. -/
def equals : Value → Value → Bool
  | .nil, .nil => true
  | .bool a, .bool b => a == b
  | .number x, .number y => x == y
  | .text s, .text t => s == t
  | .data i, .data j => i.kindName == j.kindName && i.same j
  | _, _ => false

/-- What `print` writes. -/
def display : Value → String
  | .nil => "nil"
  | .bool b => if b then "true" else "false"
  | .number x => Decimal.plain x
  | .text s => s
  | .function f => "<fn " ++ f.name.lexeme.shown ++ ">"
  | .builtin _ => "<native fn>"
  | .data j => j.shown

def typeName : Value → String
  | .nil => "nil"
  | .bool _ => "boolean"
  | .number _ => "number"
  | .text _ => "string"
  | .function _ => "function"
  | .builtin _ => "function"
  | .data j => j.kindName

/-- The exact form: numbers compact, texts quoted, functions by name. -/
def described : Value → String
  | .nil => "nil"
  | .bool b => if b then "True" else "False"
  | .number x => Decimal.written x
  | .text s => Text.quoted s
  | .function f => "<function " ++ f.name.lexeme.shown ++ ">"
  | .builtin name => "<builtin " ++ name ++ ">"
  | .data j => j.inner

end Value

end Lox
