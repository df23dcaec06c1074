import Lox.Fault
import Lox.Machine

/-!
Runs and their steps. A step reads and changes the machine and gives a result, or it stops: at a fault
of the program, because it ran out of frames, at a tree that is no program, or because a loop used up
its turns.
-/

set_option autoImplicit false

namespace Lox

/-- What can be wrong with a tree that no source text has. -/
inductive Malformed where
  | noStatement (found : Node)
  | noExpression (found : Node)
  | noToken
  | noPlace (f : Fault)
  | noBlock
  | noName
  deriving Repr

inductive Stop where
  | failed (e : RuntimeError)
  | exhausted
  | malformed (m : Malformed)
  | unfinished
  deriving Repr

/-- How a statement ends that does not stop the run. -/
inductive Completion where
  | normal
  | returned (v : Value)
  deriving Repr

/-- What a run is given once and for all: how much it notes down, from 0 for nothing to 3 for all, and
how many turns a loop may take. -/
structure Settings where
  level : Nat
  turns : Nat
  deriving Repr

abbrev Run := ExceptT Stop (StateM Machine)

namespace Run

/-- Notes a line down from a level on. -/
@[inline] def note (s : Settings) (level : Nat) (line : String) : Run Unit := fun m =>
  if level ≤ s.level then (.ok (), { m with trace := m.trace.push line }) else (.ok (), m)

def print (line : String) : Run Unit :=
  modify fun m => { m with output := m.output ++ line ++ "\n" }

/-- Stops with a fault at a token. -/
def fail {α : Type} (t : Token) (f : Fault) : Run α := throw (.failed ⟨t.line, f⟩)

/-- A fault at a place. There is no telling the line of a place that is no token. -/
def faultAt (f : Fault) : Node → Stop
  | .token t => .failed ⟨t.line, f⟩
  | _ => .malformed (.noPlace f)

/-- Stops with a fault at a place. -/
def failAt {α : Type} (place : Node) (f : Fault) : Run α := throw (faultAt f place)

/-- The token that has to be at a place. -/
def token : Node → Run Token
  | .token t => return t
  | _ => throw (.malformed .noToken)

/-- The name that a token gives. -/
def name (t : Token) : Run Name :=
  match t.name? with
  | some n => return n
  | none => throw (.malformed .noName)

/-- The value of a variable. -/
def lookup (t : Token) : Run Value := do
  let n ← name t
  let m ← get
  match m.environment.get? m.store n with
  | some v => return v
  | none => fail t (.undefinedVariable t.lexeme)

def assign (t : Token) (v : Value) : Run Unit := do
  let n ← name t
  let m ← get
  match m.environment.find? m.store n with
  | some id => modify fun m => { m with store := m.store.set id n v }
  | none => fail t (.undefinedVariable t.lexeme)

/-- Binds a name in the innermost scope. -/
def define (t : Token) (v : Value) : Run Unit := do
  let n ← name t
  modify fun m => { m with store := m.environment.define m.store n v }

/-- A new scope inside an environment. The machine's own environment stays. -/
def enclose (e : Environment) : Run Environment := fun m =>
  let (inside, store) := e.enclose m.store
  (.ok inside, { m with store })

/-- Runs a step in a new scope, which is left again however the step ends. -/
@[inline] def inScope {α : Type} (step : Run α) : Run α := fun m =>
  let (result, m) := step m.pushScope
  (result, m.popScope)

/-- Runs a step in another environment; then the old one is back, however the step ends. -/
@[inline] def inEnvironment {α : Type} (e : Environment) (step : Run α) : Run α := fun m =>
  let saved := m.environment
  let (result, m) := step { m with environment := e }
  (result, { m with environment := saved })

/-- Turns the exhaustion of a step into a fault at a place. -/
@[inline] def caughtAt {α : Type} (place : Node) (step : Run α) : Run α := fun m =>
  match step m with
  | (.error .exhausted, m) => (.error (faultAt .stackOverflow place), m)
  | other => other

/-- A reading of the clock. -/
def readClock : Run Value := fun m =>
  let (reading, clock) := m.clock.now
  (.ok (.number reading), { m with clock })

/-- The values of expressions in order, after those in `done`. -/
@[specialize] def collect (value : Node → Run Value) (done : Array Value) :
    List Node → Run (List Value)
  | [] => return done.toList
  | n :: ns => do
    let v ← value n
    collect value (done.push v) ns

/-- Statements in order, up to the first that returns. -/
@[specialize] def sequence (statement : Node → Run Completion) : List Node → Run Completion
  | [] => return .normal
  | n :: ns => do
    match ← statement n with
    | .normal => sequence statement ns
    | .returned v => return .returned v

/-- A loop: as long as the condition is truthy, the body, up to the first turn that returns. -/
@[specialize] def loop (condition : Run Value) (body : Run Completion) : Nat → Run Completion
  | 0 => throw .unfinished
  | turns + 1 => do
    if (← condition).isTruthy then
      match ← body with
      | .normal => loop condition body turns
      | .returned v => return .returned v
    else return .normal

end Run

end Lox
