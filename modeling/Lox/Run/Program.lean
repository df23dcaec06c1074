import Lox.Run.Evaluate
import Lox.Token.Scan
import Lox.Parse.Statement

/-!
Programs: from source text to statements, and from statements to an outcome.
-/

set_option autoImplicit false

namespace Lox

-- Powers are those of the core library, also where other powers are at hand.
attribute [local instance (high)] instPowNat

/-- Why a source text is no program: the scan found something, or else the parse did. -/
inductive Rejection where
  | byScan (diagnostics : List Diagnostic)
  | byParse (diagnostics : List Diagnostic)
  deriving Repr

def Rejection.diagnostics : Rejection → List Diagnostic
  | .byScan ds => ds
  | .byParse ds => ds

/-- The statements of a scan and the parse of its tokens, if neither has diagnostics. Those of the
scan come first. -/
def Parsed.accept (parsed : Parsed) (scanned : Scan) : Except Rejection Program :=
  if scanned.diagnostics ≠ [] then .error (.byScan (scanned.diagnostics ++ parsed.diagnostics))
  else if parsed.diagnostics ≠ [] then .error (.byParse parsed.diagnostics)
  else .ok parsed.statements

/-- The program of a source text. After a fatal scan nothing is parsed. -/
def Program.ofSource (frames : Nat) (source : String) : Except Rejection Program :=
  let scanned := scan source
  if scanned.fatal then .error (.byScan scanned.diagnostics)
  else (parse frames scanned.tokens).accept scanned

/-- How running a source text ends. -/
inductive Outcome where
  | ok
  | rejected (r : Rejection)
  | stopped (s : Stop)
  deriving Repr

namespace Run

/-- Runs a statement of the program itself. Exhaustion outside all calls is a fault at the statement's
leftmost token, or on line 0 if it has none. -/
def topLevel (s : Settings) (frames : Nat) (n : Node) : Run Completion :=
  caughtAt (.token (n.leadingToken.getD (.endAt 0))) (execute s frames n)

/-- Runs statements in order. A return ends the run. -/
def interpret (s : Settings) (frames : Nat) (program : Program) : Run Unit := do
  note s 1 ("interpret " ++ toString program.length ++ " statements")
  let _ ← sequence (topLevel s frames) program
  note s 1 "interpret finished"

/-- Runs a source text, noting down the stages. -/
def source (s : Settings) (frames : Nat) (text : String) : Run (Except Rejection Unit) := do
  let scanned := scan text
  note s 1 ("scanned " ++ toString scanned.tokens.length ++ " tokens")
  if scanned.fatal then return .error (.byScan scanned.diagnostics)
  let parsed := parse frames scanned.tokens
  note s 1 ("parsed " ++ toString parsed.statements.length ++ " statements")
  match parsed.accept scanned with
  | .error r => return .error r
  | .ok program => return .ok (← interpret s frames program)

end Run

namespace Machine

/-- Runs a source text on a machine. -/
def run (s : Settings) (frames : Nat) (text : String) (m : Machine) : Outcome × Machine :=
  match Run.source s frames text m with
  | (.ok (.ok ()), m) => (.ok, m)
  | (.ok (.error r), m) => (.rejected r, m)
  | (.error stop, m) => (.stopped stop, m)

/-- Runs statements on a machine. -/
def interpret (s : Settings) (frames : Nat) (program : Program) (m : Machine) :
    Outcome × Machine :=
  match Run.interpret s frames program m with
  | (.ok (), m) => (.ok, m)
  | (.error stop, m) => (.stopped stop, m)

/-- Runs a source text as a program of its own on a machine that earlier programs left: the builtin
functions are bound anew once the text is accepted. -/
def runAnew (s : Settings) (frames : Nat) (text : String) (m : Machine) : Outcome × Machine :=
  match Program.ofSource frames text with
  | .error r => (.rejected r, m)
  | .ok program => m.installBuiltins.interpret s frames program

/-- What was printed since the last time, which is forgotten. -/
def takeOutput (m : Machine) : String × Machine := (m.output, { m with output := "" })

/-- The bindings of the global scope. -/
def globals (m : Machine) : List (Name × Value) :=
  (m.store.scope m.environment.root).bindings

end Machine

/-- The frames that a run or a parse has. -/
def frameLimit : Nat := 25000

/-- Turns enough for any loop that ends. -/
def loopTurns : Nat := 2 ^ (60 : Nat)

end Lox
