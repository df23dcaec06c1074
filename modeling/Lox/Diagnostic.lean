import Lox.Token.Basic

/-!
What is wrong with a source text, and where. A complaint is the cause; `Complaint.message` has all the
wording.
-/

set_option autoImplicit false

namespace Lox

/-- The longest parameter list and argument list. -/
def mostArguments : Nat := 255

/-- After what a token is missing. -/
inductive Place where
  | variableDeclaration | functionName | parameters | value | expression | block
  | ifWord | ifCondition | whileWord | condition | forWord | loopCondition | forClauses
  | returnValue | arguments
  deriving DecidableEq, Repr

def Place.text : Place → String
  | .variableDeclaration => "variable declaration"
  | .functionName => "function name"
  | .parameters => "parameters"
  | .value => "value"
  | .expression => "expression"
  | .block => "block"
  | .ifWord => "'if'"
  | .ifCondition => "if condition"
  | .whileWord => "'while'"
  | .condition => "condition"
  | .forWord => "'for'"
  | .loopCondition => "loop condition"
  | .forClauses => "for clauses"
  | .returnValue => "return value"
  | .arguments => "arguments"

/-- What an identifier is needed for. -/
inductive Role where
  | variable | function | parameter
  deriving DecidableEq, Repr

def Role.text : Role → String
  | .variable => "variable"
  | .function => "function"
  | .parameter => "parameter"

inductive Complaint where
  | unterminatedString
  | unexpectedCharacter
  | missing (mark : Char) (place : Place)
  | missingName (role : Role)
  | missingBody
  | missingExpression
  | tooManyParameters
  | tooManyArguments
  | invalidTarget
  | strayReturn
  | tooMuchNesting
  deriving DecidableEq, Repr

def Complaint.message : Complaint → String
  | .unterminatedString => "Unterminated string."
  | .unexpectedCharacter => "Unexpected character."
  | .missing mark place => "Expect '" ++ mark.toString ++ "' after " ++ place.text ++ "."
  | .missingName role => "Expect " ++ role.text ++ " name."
  | .missingBody => "Expect '\x7b' before function body."
  | .missingExpression => "Expect expression."
  | .tooManyParameters => "Can't have more than " ++ toString mostArguments ++ " parameters."
  | .tooManyArguments => "Can't have more than " ++ toString mostArguments ++ " arguments."
  | .invalidTarget => "Invalid assignment target."
  | .strayReturn => "Can't return from top-level code."
  | .tooMuchNesting => "Too much nesting."

/-- What a diagnostic points at: nothing but a line, the end, or a lexeme. -/
inductive Spot where
  | line
  | atEnd
  | lexeme (j : Json)
  deriving Repr

def Spot.text : Spot → String
  | .line => ""
  | .atEnd => " at end"
  | .lexeme j => " at '" ++ j.shown ++ "'"

structure Diagnostic where
  line : Int
  spot : Spot
  complaint : Complaint
  deriving Repr

def Diagnostic.at (t : Token) (c : Complaint) : Diagnostic :=
  ⟨t.line, if t.isEnd then .atEnd else .lexeme t.lexeme, c⟩

def Diagnostic.render (d : Diagnostic) : String :=
  "[line " ++ toString d.line ++ "] Error" ++ d.spot.text ++ ": " ++ d.complaint.message

end Lox
