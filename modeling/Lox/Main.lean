import Lox.CommandLine

/-!
The program. It reads the file that the arguments name, or the lines that are typed in, and carries out
the report on the call.
-/

set_option autoImplicit false

open Lox Lox.CommandLine

/-- What is at a path, if it can be read. -/
def readPath (path : String) : IO (Option Entry) := do
  try
    return some (.file (← IO.FS.readBinFile path))
  catch
    | .inappropriateType .. => return some .folder
    | .invalidArgument .. => return some .unusable
    | _ => return none

/-- Answers lines as they are typed. -/
partial def converseLive (s : Settings) (m : Machine) : IO Machine := do
  let output ← IO.getStdout
  output.putStr Prompt.mark
  output.flush
  let line ← (← IO.getStdin).getLine
  let (reply, m) := Prompt.answer s frameLimit (if line.isEmpty then "EOF" else line) m
  output.putStr reply.printed
  (← IO.getStderr).putStr reply.errors
  if reply.stop then return m else converseLive s m

/-- What a path names that a task reads. -/
def taskPath? : Task → Option String
  | .emit path => some path
  | .load path => some path
  | .script path => some path
  | .prompt => none

def carryOut (r : Report) : IO UInt32 := do
  for w in r.writings do
    IO.FS.writeFile w.path w.text
  (← IO.getStdout).putStr r.printed
  (← IO.getStderr).putStr r.errors
  match r.ending with
  | .code n => return n.toUInt32
  | .misuse => return 2
  | .broken b =>
    IO.eprintln (repr b)
    return 1

def main (strings : List String) : IO UInt32 := do
  let clock := Clock.steady ((← IO.monoMsNow).toFloat / 1000)
  match (Arguments.parse strings).toOption.map fun a => (a, Arguments.task a) with
  | some (a, .prompt) =>
    IO.print Prompt.intro
    let m ← converseLive (settings a.verbosity) (.fresh clock)
    for w in traceWritings a.verbosity m do
      IO.FS.writeFile w.path w.text
    return 0
  | some (_, task) =>
    let path := plainPath ((taskPath? task).getD "")
    let entry ← readPath path
    carryOut (call (fun p => if p = path then entry else none) clock strings "")
  | none => carryOut (call (fun _ => none) clock strings "")
