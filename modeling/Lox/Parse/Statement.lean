import Lox.Parse.Expression

/-!
The grammar of statements and programs:

    program     := declaration*
    declaration := "var" variable | "fun" function | statement
    variable    := IDENTIFIER ( "=" expression )? ";"
    function    := IDENTIFIER "(" parameters? ")" "{" declaration* "}"
    statement   := expression ";" | "print" expression ";" | "return" expression? ";"
                 | "{" declaration* "}"
                 | "if" "(" expression ")" statement ( "else" statement )?
                 | "while" "(" expression ")" statement
                 | "for" "(" ( ";" | "var" variable | expression ";" ) expression? ";" expression? ")"
                   statement

A declaration that has a syntax error is dropped and the parse goes on at the next statement. One that
is nested too deep for the frames is reported at its first token and dropped likewise.
-/

set_option autoImplicit false

namespace Lox

/-- What a `for` loop is: a block with its initializer and a `while` loop, whose body is a block with
the loop's body and its increment. A missing condition is the word `true` on the loop's line. -/
def Node.forLoop (keyword : Token) (initializer condition increment : Option Node) (body : Node) :
    Node :=
  let turn := match increment with
    | some n => [body, .expression n]
    | none => [body]
  let condition := condition.getD
    (.literal (.token ⟨.trueWord, .text "true", .null, keyword.line⟩))
  .block (initializer.toList ++ [.whileDo condition (.block turn)])

namespace Parse

/-- A variable's name and initializer, after its keyword. -/
def varDeclaration (source : Source) (frames : Nat) : Parse Node := do
  let name ← expect source .identifier (.missingName .variable)
  let initializer ←
    match ← accept? source [.equal] with
    | some _ => expression source frames
    | none => pure .missing
  let _ ← expect source .semicolon (.missing ';' .variableDeclaration)
  return .var (.token name) initializer

def expressionStatement (source : Source) (frames : Nat) : Parse Node := do
  let value ← expression source frames
  let _ ← expect source .semicolon (.missing ';' .expression)
  return .expression value

def printStatement (source : Source) (frames : Nat) : Parse Node := do
  let value ← expression source frames
  let _ ← expect source .semicolon (.missing ';' .value)
  return .print value

/-- A return outside all functions is reported and parsed on. -/
def returnStatement (source : Source) (frames : Nat) (keyword : Token) : Parse Node := do
  if (← get).functionDepth = 0 then report keyword .strayReturn
  let value ← if ← nextIs source .semicolon then pure .missing else expression source frames
  let _ ← expect source .semicolon (.missing ';' .returnValue)
  return .ret (.token keyword) value

def parameters (source : Source) : Parse (List Node) := do
  if ← nextIs source .rightParen then return []
  separated source .tooManyParameters
    (.token <$> expect source .identifier (.missingName .parameter)) source.turns #[]

/-- The first clause of a `for` loop, with its semicolon. -/
def forInitializer (source : Source) (frames : Nat) : Parse (Option Node) := do
  if (← accept? source [.semicolon]).isSome then return none
  if (← accept? source [.varWord]).isSome then return some (← varDeclaration source frames)
  return some (← expressionStatement source frames)

/-- A clause of a `for` loop that may be left out before a closing token. -/
def forClause (source : Source) (frames : Nat) (closing : Kind) (c : Complaint) :
    Parse (Option Node) := do
  let clause ←
    if ← nextIs source closing then pure none else some <$> expression source frames
  let _ ← expect source closing c
  return clause

mutual

/-- A declaration, or nothing after a syntax error in it. -/
def declaration (source : Source) : Nat → Parse (Option Node)
  | 0 => throw .exhausted
  | frames + 1 => recover do
    if (← accept? source [.varWord]).isSome then varDeclaration source frames
    else if (← accept? source [.funWord]).isSome then functionDeclaration source frames
    else statement source frames

/-- A function's name, parameters and body, after its keyword. -/
def functionDeclaration (source : Source) : Nat → Parse Node
  | 0 => throw .exhausted
  | frames + 1 => do
    let name ← expect source .identifier (.missingName .function)
    let _ ← expect source .leftParen (.missing '(' .functionName)
    let params ← parameters source
    let _ ← expect source .rightParen (.missing ')' .parameters)
    let _ ← expect source .leftBrace .missingBody
    let body ← inFunction (block source frames)
    return .function (.token name) params (.block body)

/-- The declarations of a block and its closing brace. -/
def block (source : Source) : Nat → Parse (List Node)
  | 0 => throw .exhausted
  | frames + 1 => do
    let statements ← untilBrace source (declaration source frames) source.turns #[]
    let _ ← expect source .rightBrace (.missing '}' .block)
    return statements

def statement (source : Source) : Nat → Parse Node
  | 0 => throw .exhausted
  | frames + 1 => do
    let t ← peek source
    match t.kind with
    | .printWord =>
      let _ ← advance source
      printStatement source frames
    | .leftBrace =>
      let _ ← advance source
      .block <$> block source frames
    | .ifWord =>
      let _ ← advance source
      ifStatement source frames
    | .whileWord =>
      let _ ← advance source
      whileStatement source frames
    | .forWord =>
      let _ ← advance source
      forStatement source frames t
    | .returnWord =>
      let _ ← advance source
      returnStatement source frames t
    | _ => expressionStatement source frames

def ifStatement (source : Source) : Nat → Parse Node
  | 0 => throw .exhausted
  | frames + 1 => do
    let _ ← expect source .leftParen (.missing '(' .ifWord)
    let condition ← expression source frames
    let _ ← expect source .rightParen (.missing ')' .ifCondition)
    let thenBranch ← statement source frames
    match ← accept? source [.elseWord] with
    | none => return .ifElse condition thenBranch .missing
    | some _ => return .ifElse condition thenBranch (← statement source frames)

def whileStatement (source : Source) : Nat → Parse Node
  | 0 => throw .exhausted
  | frames + 1 => do
    let _ ← expect source .leftParen (.missing '(' .whileWord)
    let condition ← expression source frames
    let _ ← expect source .rightParen (.missing ')' .condition)
    return .whileDo condition (← statement source frames)

def forStatement (source : Source) : Nat → Token → Parse Node
  | 0, _ => throw .exhausted
  | frames + 1, keyword => do
    let _ ← expect source .leftParen (.missing '(' .forWord)
    let initializer ← forInitializer source frames
    let condition ← forClause source frames .semicolon (.missing ';' .loopCondition)
    let increment ← forClause source frames .rightParen (.missing ')' .forClauses)
    let body ← statement source frames
    return .forLoop keyword initializer condition increment body

end

/-- Adds the declarations up to the end to `done`. -/
def programOnto (source : Source) (frames : Nat) :
    Nat → Array Node → Parser → Array Node × Parser
  | 0, done, p => (done, p)
  | turns + 1, done, p =>
    match p.pending with
    | [] => (done, p)
    | first :: _ =>
      match declaration source frames p with
      | (.ok (some n), p) => programOnto source frames turns (done.push n) p
      | (.error .exhausted, p) =>
        let p := (p.report (.at first .tooMuchNesting)).synchronize
        programOnto source frames turns done p
      | (_, p) => programOnto source frames turns done p

end Parse

/-- What a parse gives. The statements mean something only when there are no diagnostics. -/
structure Parsed where
  statements : List Node
  diagnostics : List Diagnostic
  deriving Repr

/-- Parses a token list, with at most `frames` rules open at a time. -/
def parse (frames : Nat) (tokens : List Token) : Parsed :=
  let source := Source.ofTokens tokens
  let (statements, p) := Parse.programOnto source frames source.turns #[] (.ofTokens tokens)
  ⟨statements.toList, p.diagnostics.toList⟩

end Lox
