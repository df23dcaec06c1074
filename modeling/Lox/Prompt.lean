import Lox.Run.Program
import Lox.Text.Blank

/-!
The prompt: lines are run one by one on the same machine, and a few are commands to the prompt itself.
-/

set_option autoImplicit false

namespace Lox.Prompt

/-- What a line asks for. -/
inductive Request where
  | nothing
  | help
  | stop
  | run (text : String)
  deriving DecidableEq, Repr

def isCommandChar (c : Char) : Bool := isDigit c || isLetter c

/-- A line without the white space around it is a command when the word that begins it is one,
whatever follows. A question mark asks for help. -/
def Request.ofLine (line : String) : Request :=
  let text := Text.trim line
  match text.toList with
  | [] => .nothing
  | '?' :: _ => .help
  | cs =>
    let word := cs.takeWhile isCommandChar
    if word = ['h', 'e', 'l', 'p'] then .help
    else if word = ['E', 'O', 'F'] then .stop
    else .run text

/-- What is printed when the prompt starts. -/
def intro : String :=
  "Lox interpreter :: Python backend\nType 'help' for more information, Ctrl-D to quit.\n"

/-- What stands before each line. -/
def mark : String := "> "

def helpText : String :=
  "Type Lox statements and press enter, e.g. 'var a = 1;' then 'print a + 2;'.\n" ++
  "Variables and functions persist between lines. 'clock()' returns the\n" ++
  "current monotonic time in seconds.\n"

/-- What the prompt answers to a line. -/
structure Reply where
  printed : String
  errors : String
  stop : Bool
  deriving DecidableEq, Repr

/-- The lines that report how a run ended. -/
def errorText : Outcome → String
  | .ok => ""
  | .rejected r => String.join (r.diagnostics.map fun d => d.render ++ "\n")
  | .stopped (.failed e) => e.render ++ "\n"
  | .stopped _ => ""

def answer (s : Settings) (frames : Nat) (line : String) (m : Machine) : Reply × Machine :=
  match Request.ofLine line with
  | .nothing => (⟨"", "", false⟩, m)
  | .help => (⟨helpText, "", false⟩, m)
  | .stop => (⟨"\n", "", true⟩, m)
  | .run text =>
    let (outcome, m) := m.run s frames text
    let (printed, m) := m.takeOutput
    (⟨printed, errorText outcome, false⟩, m)

end Lox.Prompt
