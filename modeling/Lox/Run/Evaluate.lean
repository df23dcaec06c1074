import Lox.Run.Operators

/-!
Evaluation of expressions and execution of statements, by recursion on the frames that are left. Each
expression, statement, block and call that is open takes one or more of them; with none left the step
stops as exhausted. A call turns the exhaustion of what it called into a stack overflow at its closing
parenthesis.
-/

set_option autoImplicit false

namespace Lox

namespace Run

/-- The result of an operator; its fault is at the operator. -/
def operated (operator : Token) : Except Fault Value → Run Value
  | .ok v => return v
  | .error f => fail operator f

/-- Binds parameters to arguments. -/
def bindParams : List Node → List Value → Run Unit
  | param :: params, v :: vs => do
    define (← token param) v
    bindParams params vs
  | _, _ => return ()

/-- The statements that a body has to be a block of. -/
def blockOf : Node → Run (List Node)
  | .block statements => return statements
  | _ => throw (.malformed .noBlock)

def isOr (t : Token) : Bool := t.kind = .orWord

mutual

def evaluate (s : Settings) : Nat → Node → Run Value
  | 0, _ => throw .exhausted
  | frames + 1, n =>
    match n with
    | .literal t => do
      let t ← token t
      operated t (Value.literal t)
    | .grouping value => evaluate s frames value
    | .variable name => do lookup (← token name)
    | .assign name value => do
      let v ← evaluate s frames value
      assign (← token name) v
      return v
    | .unary operator right => do
      let v ← evaluate s frames right
      let operator ← token operator
      operated operator (v.unary operator)
    | .logical left operator right => do
      let v ← evaluate s frames left
      let operator ← token operator
      if v.isTruthy = isOr operator then return v else evaluate s frames right
    | .binary left operator right => do
      let a ← evaluate s frames left
      let b ← evaluate s frames right
      let operator ← token operator
      operated operator (a.binary operator b)
    | .call callee paren arguments => do
      let f ← evaluate s frames callee
      let vs ← evaluateAll s frames arguments
      apply s frames f vs paren
    | n => throw (.malformed (.noExpression n))

def evaluateAll (s : Settings) : Nat → List Node → Run (List Value)
  | 0, _ => throw .exhausted
  | frames + 1, ns => collect (evaluate s frames) #[] ns

/-- Calls a value with arguments, the call's closing parenthesis being at a place. -/
def apply (s : Settings) : Nat → Value → List Value → Node → Run Value
  | 0, _, _, _ => throw .exhausted
  | frames + 1, f, vs, paren =>
    match f with
    | .function closure => do
      if vs.length ≠ closure.params.length then
        failAt paren (.wrongCount closure.params.length vs.length)
      note s 3 ("call " ++ f.described ++ " with " ++ toString vs.length ++ " arguments")
      caughtAt paren (invoke s frames closure vs)
    | .builtin _ => do
      if vs.length ≠ 0 then failAt paren (.wrongCount 0 vs.length)
      note s 3 ("call " ++ f.described ++ " with 0 arguments")
      readClock
    | _ => failAt paren .notCallable

/-- Runs a function's body in a new scope inside the environment that the function was declared in,
its parameters bound there. Without a return the value is nil. -/
def invoke (s : Settings) : Nat → Closure → List Value → Run Value
  | frames + 2, closure, vs => do
    let inside ← enclose closure.environment
    inEnvironment inside (bindParams closure.params vs)
    let statements ← blockOf closure.body
    match ← inEnvironment inside (executeAll s frames statements) with
    | .returned v => return v
    | .normal => return .nil
  | _, _, _ => throw .exhausted

/-- Statements in order, in the current scope. -/
def executeAll (s : Settings) : Nat → List Node → Run Completion
  | 0, _ => throw .exhausted
  | frames + 1, ns => sequence (execute s frames) ns

def execute (s : Settings) : Nat → Node → Run Completion
  | 0, _ => throw .exhausted
  | frames + 1, n =>
    match n with
    | .expression value => do
      let _ ← evaluate s frames value
      return .normal
    | .print value => do
      let v ← evaluate s frames value
      print v.display
      return .normal
    | .var name initializer => do
      let v ←
        match initializer with
        | .missing => pure .nil
        | initializer => evaluate s frames initializer
      let t ← token name
      define t v
      note s 2 ("declare " ++ t.lexeme.shown ++ ": " ++ v.typeName ++ " = " ++ v.display)
      return .normal
    | .block statements => inScope (executeAll s frames statements)
    | .ifElse condition thenBranch elseBranch => do
      let v ← evaluate s frames condition
      note s 3 ("if condition " ++ v.display ++ " -> " ++ (if v.isTruthy then "True" else "False"))
      if v.isTruthy then execute s frames thenBranch
      else
        match elseBranch with
        | .missing => return .normal
        | elseBranch => execute s frames elseBranch
    | .whileDo condition body => loop (evaluate s frames condition) (execute s frames body) s.turns
    | .function name params body => do
      let m ← get
      let t ← token name
      define t (.function ⟨t, params, body, m.environment.capture⟩)
      note s 2 ("define function " ++ t.lexeme.shown ++ "/" ++ toString params.length)
      return .normal
    | .ret _ value =>
      match value with
      | .missing => return .returned .nil
      | value => do return .returned (← evaluate s frames value)
    | n => throw (.malformed (.noStatement n))

end

end Run

end Lox
