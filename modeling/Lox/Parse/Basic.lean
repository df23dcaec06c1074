import Lox.Node.Basic
import Lox.Diagnostic

/-!
The parser's position and its steps. A step reads and changes the position and gives a result, or it
aborts: after a syntax error, which is reported already, or because it ran out of frames.

Tokens after the first end mark have no part in a parse, so only those before it are pending.
-/

set_option autoImplicit false

namespace Lox

/-- What a parse is given once and for all: the end mark, and a bound on the turns of each loop. Each
turn takes a token, so more turns than there are tokens are enough. -/
structure Source where
  last : Token
  turns : Nat
  deriving Repr

structure Parser where
  pending : List Token
  diagnostics : Array Diagnostic
  functionDepth : Nat
  deriving Repr

inductive Abort where
  | syntaxError
  | exhausted
  deriving DecidableEq, Repr

abbrev Parse := ExceptT Abort (StateM Parser)

/-- The end mark of a token list: its first one, or a new one on the last token's line. -/
def Source.lastOf (tokens : List Token) : Token :=
  match tokens.find? Token.isEnd with
  | some t => t
  | none => .endAt ((tokens.getLast?.map Token.line).getD 1)

def Source.ofTokens (tokens : List Token) : Source := ⟨lastOf tokens, tokens.length + 1⟩

def Parser.ofTokens (tokens : List Token) : Parser := ⟨tokens.takeWhile (!·.isEnd), #[], 0⟩

/-- The kinds that begin a statement. -/
def Kind.startsStatement : Kind → Bool
  | .classWord | .funWord | .varWord | .forWord | .ifWord | .whileWord | .printWord
  | .returnWord => true
  | _ => false

namespace Parser

def report (p : Parser) (d : Diagnostic) : Parser :=
  { p with diagnostics := p.diagnostics.push d }

/-- Drops tokens up to the next statement, `before` being the token dropped last. -/
def skip (before : Token) : List Token → List Token
  | [] => []
  | t :: rest =>
    if before.kind = .semicolon || t.kind.startsStatement then t :: rest else skip t rest

/-- Drops at least one token, then all up to the next statement. -/
def synchronize (p : Parser) : Parser :=
  match p.pending with
  | [] => p
  | t :: rest => { p with pending := skip t rest }

end Parser

namespace Parse

/-- The next token; at the end, the end mark. -/
def peek (source : Source) : Parse Token := do
  return (← get).pending.headD source.last

def atEnd : Parse Bool := do
  return (← get).pending.isEmpty

/-- Takes the next token. The end mark stays. -/
def advance (source : Source) : Parse Token := do
  let t ← peek source
  modify fun p => { p with pending := p.pending.tail }
  return t

def nextIs (source : Source) (kind : Kind) : Parse Bool := do
  return (← peek source).kind = kind

/-- Takes the next token if it has one of the kinds. -/
def accept? (source : Source) (kinds : List Kind) : Parse (Option Token) := do
  if kinds.contains (← peek source).kind then return some (← advance source) else return none

/-- Reports a complaint and goes on. -/
def report (t : Token) (c : Complaint) : Parse Unit :=
  modify (·.report (.at t c))

/-- Reports a complaint about the next token and aborts. -/
def fail {α : Type} (source : Source) (c : Complaint) : Parse α := do
  report (← peek source) c
  throw .syntaxError

/-- Takes a token of the kind, or complains. -/
def expect (source : Source) (kind : Kind) (c : Complaint) : Parse Token := do
  if ← nextIs source kind then advance source else fail source c

/-- Runs a step as part of a function body; however it ends, the body is left again. -/
def inFunction {α : Type} (step : Parse α) : Parse α := fun p =>
  let (result, p) := step { p with functionDepth := p.functionDepth + 1 }
  (result, { p with functionDepth := p.functionDepth - 1 })

/-- Runs a step; after a syntax error in it, goes on at the next statement without a result. -/
def recover {α : Type} (step : Parse α) : Parse (Option α) := fun p =>
  match step p with
  | (.ok a, p) => (.ok (some a), p)
  | (.error .syntaxError, p) => (.ok none, p.synchronize)
  | (.error .exhausted, p) => (.error .exhausted, p)

/-- Lets a step replace a node as long as it does. -/
@[specialize] def extend (step : Node → Parse (Option Node)) : Nat → Node → Parse Node
  | 0, n => return n
  | turns + 1, n => do
    match ← step n with
    | none => return n
    | some n => extend step turns n

/-- One item or more with commas between them. An item beyond the longest list is reported. -/
@[specialize] def separated (source : Source) (excess : Complaint) (item : Parse Node) :
    Nat → Array Node → Parse (List Node)
  | 0, done => return done.toList
  | turns + 1, done => do
    if mostArguments ≤ done.size then report (← peek source) excess
    let n ← item
    match ← accept? source [.comma] with
    | none => return (done.push n).toList
    | some _ => separated source excess item turns (done.push n)

/-- Items up to a closing brace or the end; those without a result are left out. -/
@[specialize] def untilBrace (source : Source) (item : Parse (Option Node)) :
    Nat → Array Node → Parse (List Node)
  | 0, done => return done.toList
  | turns + 1, done => do
    if (← nextIs source .rightBrace) || (← atEnd) then return done.toList
    match ← item with
    | none => untilBrace source item turns done
    | some n => untilBrace source item turns (done.push n)

end Parse

end Lox
