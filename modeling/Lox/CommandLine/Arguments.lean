import Lox.Text.Integer

/-!
The arguments of the command line: options with one or two dashes, abbreviated or with their value
joined by `=`, and one operand. After `--` everything is an operand.
-/

set_option autoImplicit false

namespace Lox.CommandLine

inductive Flag where
  | help
  | verbose
  | emit
  | load
  deriving DecidableEq, Repr

def Flag.spellings : List (List Char × Flag) :=
  [("-h".toList, .help), ("--help".toList, .help), ("-v".toList, .verbose),
   ("--emit-ast".toList, .emit), ("--ast".toList, .load)]

/-- The option of one letter. -/
def Flag.ofLetter? (c : Char) : Option Flag := Flag.spellings.lookup ['-', c]

/-- A value written in the same argument as its option: after `=`, or directly when the option has one
letter. -/
structure Attached where
  toLetter : Bool
  text : List Char
  deriving DecidableEq, Repr

/-- What an argument is, seen alone. -/
inductive Mark where
  | operand (s : String)
  | divider
  | option (flag : Flag) (attached : Option Attached)
  | unknown
  deriving DecidableEq, Repr

/-- Why the arguments ask for no run. -/
inductive Misuse where
  | helpWanted
  | wrong
  deriving DecidableEq, Repr

/-- Whether an argument begins with two dashes. -/
def isLong : List Char → Bool
  | '-' :: '-' :: _ => true
  | _ => false

/-- What precedes the first `=` and, if there is one, what follows it. -/
def splitEquals (cs : List Char) : List Char × Option Attached :=
  match cs.dropWhile (· != '=') with
  | [] => (cs, none)
  | _ :: value => (cs.takeWhile (· != '='), some ⟨!isLong cs, value⟩)

/-- Digits of any script, with at most one point and a digit at the end. -/
def isUnsigned (cs : List Char) : Bool :=
  match cs.dropWhile Text.isDecimal with
  | [] => !cs.isEmpty
  | '.' :: rest => !rest.isEmpty && rest.all Text.isDecimal
  | _ => false

/-- A dash and an unsigned number, which a line feed may end: a number, not an option. -/
def isNegativeNumber : List Char → Bool
  | '-' :: cs => isUnsigned (if cs.getLast? = some '\n' then cs.dropLast else cs)
  | _ => false

/-- The options that an argument may abbreviate, with what it attaches to them. -/
def candidates (cs : List Char) : List (Flag × Option Attached) :=
  if isLong cs then
    let (name, attached) := splitEquals cs
    Flag.spellings.filterMap fun (spelling, flag) =>
      if name.isPrefixOf spelling then some (flag, attached) else none
  else
    Flag.spellings.filterMap fun (spelling, flag) =>
      if spelling = cs.take 2 then some (flag, some ⟨true, cs.drop 2⟩) else none

def Mark.ofDashed (s : String) : Except Misuse Mark :=
  let cs := s.toList
  let (name, attached) := splitEquals cs
  if let some flag := Flag.spellings.lookup cs then .ok (.option flag none)
  else if cs.length = 1 then .ok (.operand s)
  else if let (some flag, some value) := (Flag.spellings.lookup name, attached) then
    .ok (.option flag (some value))
  else
    match candidates cs with
    | [(flag, attached)] => .ok (.option flag attached)
    | [] => .ok (if isNegativeNumber cs || cs.contains ' ' then .operand s else .unknown)
    | _ => .error .wrong

/-- The marks of all arguments; after the divider they are operands. -/
def marks : List String → Except Misuse (List Mark)
  | [] => .ok []
  | "--" :: rest => .ok (.divider :: rest.map .operand)
  | s :: rest => do
    let mark ← if s.startsWith "-" then Mark.ofDashed s else .ok (.operand s)
    return mark :: (← marks rest)

/-- What the arguments ask for. -/
structure Arguments where
  verbosity : Nat
  emit : Option String
  load : Option String
  script : Option String
  deriving DecidableEq, Repr

/-- Arguments so far, whether the operand's place is taken, and whether something had no place. -/
structure Progress where
  arguments : Arguments
  placed : Bool
  surplus : Bool
  deriving DecidableEq, Repr

namespace Progress

def start : Progress := ⟨⟨0, none, none, none⟩, false, false⟩

def withSurplus (p : Progress) : Progress := { p with surplus := true }

/-- Fills the operand's place. -/
def place (p : Progress) (script : Option String) : Progress :=
  { p with placed := true, arguments := { p.arguments with script } }

/-- Sets the value of an option. The two options that take one exclude each other. -/
def setValue (p : Progress) (flag : Flag) (value : String) : Except Misuse Progress :=
  match flag with
  | .emit =>
    if p.arguments.load.isSome then .error .wrong
    else .ok { p with arguments := { p.arguments with emit := some value } }
  | .load =>
    if p.arguments.emit.isSome then .error .wrong
    else .ok { p with arguments := { p.arguments with load := some value } }
  | _ => .error .wrong

/-- Obeys an option without a value. -/
def obey (p : Progress) : Flag → Except Misuse Progress
  | .help => .error .helpWanted
  | .verbose =>
    .ok { p with arguments := { p.arguments with verbosity := p.arguments.verbosity + 1 } }
  | _ => .error .wrong

/-- Obeys an option with its attached value. A value that is a divider is empty. What is attached to
an option that takes no value has to be further letters of such options. -/
def obeyAttached (p : Progress) (flag : Flag) (value : Attached) : Except Misuse Progress :=
  match flag with
  | .emit | .load => p.setValue flag (if value.text = ['-', '-'] then "" else .ofList value.text)
  | _ =>
    match value.toLetter, value.text.mapM Flag.ofLetter? with
    | true, some (next :: flags) => (flag :: next :: flags).foldlM obey p
    | _, _ => .error .wrong

def consume (p : Progress) : List Mark → Except Misuse Progress
  | [] => .ok p
  | .unknown :: rest => consume p.withSurplus rest
  | .option flag (some value) :: rest => do consume (← p.obeyAttached flag value) rest
  | .option .emit none :: .operand s :: rest => do consume (← p.setValue .emit s) rest
  | .option .load none :: .operand s :: rest => do consume (← p.setValue .load s) rest
  | .option flag none :: rest => do consume (← p.obey flag) rest
  | .divider :: .operand s :: rest =>
    if p.placed then consume p.withSurplus rest else consume (p.place (some s)) rest
  | .divider :: rest => if p.placed then consume p.withSurplus rest else consume (p.place none) rest
  | .operand s :: .divider :: rest =>
    if p.placed then consume p.withSurplus rest else consume (p.place (some s)) rest
  | .operand s :: rest =>
    if p.placed then consume p.withSurplus rest else consume (p.place (some s)) rest

end Progress

def Arguments.parse (strings : List String) : Except Misuse Arguments := do
  let p ← Progress.start.consume (← marks strings)
  if p.surplus then .error .wrong else .ok p.arguments

/-- What to do. An empty value is as good as none. -/
inductive Task where
  | emit (path : String)
  | load (path : String)
  | script (path : String)
  | prompt
  deriving DecidableEq, Repr

def Arguments.task (a : Arguments) : Task :=
  let given (value : Option String) := value.filter (· ≠ "")
  match given a.emit, given a.load, given a.script with
  | some path, _, _ => .emit path
  | none, some path, _ => .load path
  | none, none, some path => .script path
  | none, none, none => .prompt

end Lox.CommandLine
