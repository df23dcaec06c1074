import Lox.Parse.Basic

/-!
The grammar of expressions:

    expression := assignment
    assignment := IDENTIFIER "=" assignment | operand of the loosest level
    operand    := tighter ( operator tighter )*        for each level of infix operators
                | ( "!" | "-" ) operand | call         at the tightest
    call       := primary ( "(" arguments? ")" )*
    primary    := NUMBER | STRING | "true" | "false" | "nil" | IDENTIFIER | "(" expression ")"

Each rule that is open takes one of the frames; with none left the parse aborts.
-/

set_option autoImplicit false

namespace Lox

/-- A level of infix operators that associate to the left. -/
structure Level where
  operators : List Kind
  isLogical : Bool
  deriving DecidableEq, Repr

/-- The levels, loosest first. -/
def Level.all : List Level :=
  [⟨[.orWord], true⟩, ⟨[.andWord], true⟩, ⟨[.bangEqual, .equalEqual], false⟩,
   ⟨[.greater, .greaterEqual, .less, .lessEqual], false⟩, ⟨[.minus, .plus], false⟩,
   ⟨[.slash, .star], false⟩]

def Level.build (level : Level) (left : Node) (operator : Token) (right : Node) : Node :=
  if level.isLogical then .logical left (.token operator) right
  else .binary left (.token operator) right

/-- The kinds of the tokens that are expressions by themselves and no names. -/
def Kind.isLiteral : Kind → Bool
  | .number | .string | .trueWord | .falseWord | .nilWord => true
  | _ => false

namespace Parse

mutual

def expression (source : Source) : Nat → Parse Node
  | 0 => throw .exhausted
  | frames + 1 => assignment source frames

/-- A value for anything but a variable is reported, and the left side stands for both. -/
def assignment (source : Source) : Nat → Parse Node
  | 0 => throw .exhausted
  | frames + 1 => do
    let target ← operand source frames Level.all
    match ← accept? source [.equal] with
    | none => return target
    | some equals =>
      let value ← assignment source frames
      match target with
      | .variable name => return .assign name value
      | _ =>
        report equals .invalidTarget
        return target

/-- An expression of the given levels, or of none: an operator before its operand, or a call. -/
def operand (source : Source) : Nat → List Level → Parse Node
  | 0, _ => throw .exhausted
  | frames + 1, level :: tighter => do
    let left ← operand source frames tighter
    extend (fun left => do
      match ← accept? source level.operators with
      | none => return none
      | some operator =>
        let right ← operand source frames tighter
        return some (level.build left operator right)) source.turns left
  | frames + 1, [] => do
    match ← accept? source [.bang, .minus] with
    | some operator =>
      let right ← operand source frames []
      return .unary (.token operator) right
    | none => call source frames

def call (source : Source) : Nat → Parse Node
  | 0 => throw .exhausted
  | frames + 1 => do
    let callee ← primary source frames
    extend (fun callee => do
      match ← accept? source [.leftParen] with
      | none => return none
      | some _ => return some (← finishCall source frames callee)) source.turns callee

/-- The arguments and the closing parenthesis. -/
def finishCall (source : Source) : Nat → Node → Parse Node
  | 0, _ => throw .exhausted
  | frames + 1, callee => do
    let arguments ←
      if ← nextIs source .rightParen then pure []
      else separated source .tooManyArguments (expression source frames) source.turns #[]
    let paren ← expect source .rightParen (.missing ')' .arguments)
    return .call callee (.token paren) arguments

def primary (source : Source) : Nat → Parse Node
  | 0 => throw .exhausted
  | frames + 1 => do
    let t ← peek source
    if t.kind.isLiteral then return .literal (.token (← advance source))
    else if t.kind = .identifier then return .variable (.token (← advance source))
    else if t.kind = .leftParen then
      let _ ← advance source
      let value ← expression source frames
      let _ ← expect source .rightParen (.missing ')' .expression)
      return .grouping value
    else fail source .missingExpression

end

end Parse

end Lox
