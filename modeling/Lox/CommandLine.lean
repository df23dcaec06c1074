import Lox.CommandLine.Arguments
import Lox.Node.Text
import Lox.Prompt
import Lox.Text.Newlines

/-!
The command line: what a call with arguments prints, writes and ends with, given the files there are
and what is typed in.
-/

set_option autoImplicit false

namespace Lox.CommandLine

/-- The parts of a path between its slashes, empty ones and single points left out. -/
def pathParts (path : String) : List String :=
  (path.splitOn "/").filter fun part => part ≠ "" ∧ part ≠ "."

/-- What a path begins with when it is not relative; exactly two slashes are kept. -/
def pathRoot (path : String) : String :=
  match path.toList with
  | '/' :: '/' :: '/' :: _ => "/"
  | '/' :: '/' :: _ => "//"
  | '/' :: _ => "/"
  | _ => ""

/-- The plainest spelling of a path. -/
def plainPath (path : String) : String :=
  let plain := pathRoot path ++ "/".intercalate (pathParts path)
  if plain = "" then "." else plain

/-- What a path can lead to. A path too long to lead anywhere is unusable. -/
inductive Entry where
  | file (bytes : ByteArray)
  | folder
  | unusable

/-- What there is at each path. -/
abbrev Files := String → Option Entry

/-- A text to be written into a file. -/
structure Writing where
  path : String
  text : String
  deriving DecidableEq, Repr

/-- What keeps a call from ending in an orderly way. -/
inductive Breakage where
  | noFile
  | unusablePath
  | undecodableText
  | noTree (e : TextError)
  | malformed (m : Malformed)
  | unfinished
  deriving Repr

inductive Ending where
  | code (n : Nat)
  | misuse
  | broken (b : Breakage)
  deriving Repr

structure Report where
  ending : Ending
  printed : String
  errors : String
  writings : List Writing
  deriving Repr

def success : Ending := .code 0
def dataError : Ending := .code 65
def noInput : Ending := .code 66
def failure : Ending := .code 70

/-- Where traces go. -/
def traceFile : String := "debug.txt"

def emittedSuffix : String := ".ast.json"

def usage : String :=
  "usage: lox [-h] [-v] [--emit-ast FILE | --ast FILE] [script]\n\n" ++
  "  -h, --help       show this text\n" ++
  "  -v               write a trace to debug.txt; more of it with each further -v\n" ++
  "  --emit-ast FILE  write the syntax tree of a script as JSON\n" ++
  "  --ast FILE       run a syntax tree that was written before\n"

/-- A report that ends a call at once. -/
def Report.ofErrors (ending : Ending) (errors : String) : Report := ⟨ending, "", errors, []⟩

/-- A report that a call breaks off at once. -/
def Report.ofBreakage (b : Breakage) : Report := .ofErrors (.broken b) ""

/-- The text of a file. Without the file, when its path cannot be that of a file, or when it holds no
text, the call ends. -/
def readText (files : Files) (path : String) : Except Report String :=
  match files path with
  | none => .error (.ofErrors noInput ("Error: file " ++ path ++ " not found\n"))
  | some .folder => .error (.ofBreakage .noFile)
  | some .unusable => .error (.ofBreakage .unusablePath)
  | some (.file bytes) =>
    match String.fromUTF8? bytes with
    | none => .error (.ofBreakage .undecodableText)
    | some text => .ok (Text.unifyNewlines text)

/-- The trace file of a machine, if traces are wanted. -/
def traceWritings (verbosity : Nat) (m : Machine) : List Writing :=
  if verbosity = 0 then [] else [⟨traceFile, String.join (m.trace.toList.map (· ++ "\n"))⟩]

/-- How a call ends whose program ended so. -/
def endingOf : Outcome → Ending
  | .ok => success
  | .rejected _ => dataError
  | .stopped (.failed _) => failure
  | .stopped .exhausted => failure
  | .stopped (.malformed m) => .broken (.malformed m)
  | .stopped .unfinished => .broken .unfinished

def settings (verbosity : Nat) : Settings := ⟨verbosity, loopTurns⟩

/-- Reports the end of a program. -/
def reportRun (verbosity : Nat) (outcome : Outcome) (m : Machine) : Report :=
  ⟨endingOf outcome, m.output, Prompt.errorText outcome, traceWritings verbosity m⟩

/-- Runs a script. The trace file is emptied before the script is read. -/
def runScript (files : Files) (clock : Clock) (verbosity : Nat) (path : String) : Report :=
  let m := Machine.fresh clock
  let files : Files := fun p =>
    if 0 < verbosity ∧ p = traceFile then some (.file .empty) else files p
  match readText files path with
  | .error report => { report with writings := traceWritings verbosity m }
  | .ok text =>
    let (outcome, m) := m.run (settings verbosity) frameLimit text
    reportRun verbosity outcome m

/-- Writes the syntax tree of a script beside it. -/
def emitTree (files : Files) (path : String) : Report :=
  match readText files path with
  | .error report => report
  | .ok text =>
    match Program.ofSource frameLimit text with
    | .error r => .ofErrors dataError (Prompt.errorText (.rejected r))
    | .ok program =>
      if program.fits frameLimit then
        let target := path ++ emittedSuffix
        match files target with
        | some .folder => .ofBreakage .noFile
        | some .unusable => .ofBreakage .unusablePath
        | _ => ⟨success, target ++ "\n", "", [⟨target, program.toText⟩]⟩
      else
        .ofErrors dataError ("Error: " ++ path ++ " is nested too deeply to emit as JSON\n")

/-- The program that a text of a syntax tree holds. -/
def loadTree (path text : String) : Except Report Program :=
  let tooDeep := Report.ofErrors dataError ("Error: " ++ path ++ " is nested too deeply to load\n")
  match Program.ofText frameLimit text with
  | .error (.unreadable .tooDeep) => .error tooDeep
  | .error (.noProgram .tooDeep) => .error tooDeep
  | .error e => .error (.ofBreakage (.noTree e))
  | .ok program => .ok program

/-- Runs a syntax tree. -/
def runTree (files : Files) (clock : Clock) (verbosity : Nat) (path : String) : Report :=
  match readText files path >>= loadTree path with
  | .error report => report
  | .ok program =>
    let (outcome, m) := (Machine.fresh clock).interpret (settings verbosity) frameLimit program
    reportRun verbosity outcome m

/-- Answers lines up to one that stops the prompt; the end of the lines stops it too. -/
def converse (verbosity : Nat) (printed errors : String) (m : Machine) :
    List String → String × String × Machine
  | [] => (printed ++ Prompt.mark ++ "\n", errors, m)
  | line :: lines =>
    let (reply, m) := Prompt.answer (settings verbosity) frameLimit line m
    let printed := printed ++ Prompt.mark ++ reply.printed
    let errors := errors ++ reply.errors
    if reply.stop then (printed, errors, m) else converse verbosity printed errors m lines

def runPrompt (clock : Clock) (verbosity : Nat) (typed : String) : Report :=
  let (printed, errors, m) :=
    converse verbosity Prompt.intro "" (Machine.fresh clock) (Text.lines typed)
  ⟨success, printed, errors, traceWritings verbosity m⟩

/-- The report on a call with arguments. -/
def call (files : Files) (clock : Clock) (strings : List String) (typed : String) : Report :=
  match Arguments.parse strings with
  | .error .helpWanted => ⟨success, usage, "", []⟩
  | .error .wrong => .ofErrors .misuse usage
  | .ok arguments =>
    match arguments.task with
    | .emit path => emitTree files (plainPath path)
    | .load path => runTree files clock arguments.verbosity (plainPath path)
    | .script path => runScript files clock arguments.verbosity (plainPath path)
    | .prompt => runPrompt clock arguments.verbosity typed

end Lox.CommandLine
