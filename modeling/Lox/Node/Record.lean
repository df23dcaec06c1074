import Lox.Node.Basic
import Lox.Text.Integer

/-!
Trees as JSON records. A node is a record with the name of its form and one field a child; a token is a
record with its four parts; an absent child is null.

Loading takes what it needs and ignores other fields. It asks for the right shape of records and
tokens only, not for the right kind of child at each place.
-/

set_option autoImplicit false

namespace Lox

/-- Why a record is no tree. -/
inductive LoadError where
  | missingField (key : String)
  | unknownKind (name : Json)
  | unnamedKind
  | notARecord
  | notAToken
  | notAList
  | unknownForm (form : Json)
  | unreadableLine
  | infiniteLine
  | lineNotANumber
  | notAProgram
  | tooDeep
  deriving Repr

namespace Token

def toJson (t : Token) : Json :=
  .record [("token", .text t.kind.name), ("lexeme", t.lexeme), ("literal", t.literal),
    ("line", .integer t.line)]

end Token

/-- A field that has to be there. -/
def Json.Fields.require (fields : Json.Fields) (key : String) : Except LoadError Json :=
  match fields.get? key with
  | some j => .ok j
  | none => .error (.missingField key)

/-- A field that may be left out, which is as good as null. -/
def Json.Fields.allow (fields : Json.Fields) (key : String) : Json := (fields.get? key).getD .null

namespace Token

/-- The kind that a record names. -/
def kindOf : Json → Except LoadError Kind
  | .text s =>
    match Kind.ofName? s with
    | some kind => .ok kind
    | none => .error (.unknownKind (.text s))
  | .list _ => .error .unnamedKind
  | .record _ => .error .unnamedKind
  | j => .error (.unknownKind j)

/-- The line that a record gives: a number without its fraction, or the text of an integer. -/
def lineOf : Json → Except LoadError Int
  | .integer i => .ok i
  | .bool b => .ok (if b then 1 else 0)
  | .real x =>
    match Decimal.Binary.ofFloat x with
    | .nan => .error .unreadableLine
    | .infinite _ => .error .infiniteLine
    | b => .ok b.truncate
  | .text s =>
    match Text.integer? s with
    | some i => .ok i
    | none => .error .unreadableLine
  | _ => .error .lineNotANumber

def ofFields (fields : Json.Fields) : Except LoadError Token := do
  let kind ← kindOf (← fields.require "token")
  let lexeme ← fields.require "lexeme"
  let line ← lineOf (← fields.require "line")
  pure ⟨kind, lexeme, fields.allow "literal", line⟩

def ofJson : Json → Except LoadError Token
  | .record fields => ofFields fields
  | _ => .error .notAToken

end Token

namespace Node

mutual

def toJson : Node → Json
  | .missing => .null
  | .token t => t.toJson
  | .expression value => .record [("type", .text "Expression"), ("expression", toJson value)]
  | .print value => .record [("type", .text "Print"), ("expression", toJson value)]
  | .var name initializer =>
    .record [("type", .text "Var"), ("name", toJson name), ("initializer", toJson initializer)]
  | .block statements =>
    .record [("type", .text "Block"), ("statements", .list (allToJson statements))]
  | .ifElse condition thenBranch elseBranch =>
    .record [("type", .text "If"), ("condition", toJson condition),
      ("then_branch", toJson thenBranch), ("else_branch", toJson elseBranch)]
  | .whileDo condition body =>
    .record [("type", .text "While"), ("condition", toJson condition), ("body", toJson body)]
  | .function name params body =>
    .record [("type", .text "Function"), ("name", toJson name),
      ("params", .list (allToJson params)), ("body", toJson body)]
  | .ret keyword value =>
    .record [("type", .text "Return"), ("keyword", toJson keyword), ("value", toJson value)]
  | .literal t => .record [("type", .text "Literal"), ("token", toJson t)]
  | .grouping value => .record [("type", .text "Grouping"), ("expression", toJson value)]
  | .unary operator right =>
    .record [("type", .text "Unary"), ("operator", toJson operator), ("right", toJson right)]
  | .binary left operator right =>
    .record [("type", .text "Binary"), ("left", toJson left), ("operator", toJson operator),
      ("right", toJson right)]
  | .logical left operator right =>
    .record [("type", .text "Logical"), ("left", toJson left), ("operator", toJson operator),
      ("right", toJson right)]
  | .variable name => .record [("type", .text "Variable"), ("name", toJson name)]
  | .assign name value =>
    .record [("type", .text "Assign"), ("name", toJson name), ("value", toJson value)]
  | .call callee paren arguments =>
    .record [("type", .text "Call"), ("callee", toJson callee), ("paren", toJson paren),
      ("arguments", .list (allToJson arguments))]

def allToJson : List Node → List Json
  | [] => []
  | n :: ns => toJson n :: allToJson ns

end

mutual

/-- Whether the record of a node needs at most `limit` records and lists inside each other. -/
def fits : Nat → Node → Bool
  | 0, _ => false
  | limit + 1, n =>
    match n with
    | .missing | .token _ => true
    | .expression value | .print value | .grouping value | .literal value | .variable value =>
      fits limit value
    | .var a b | .whileDo a b | .ret a b | .unary a b | .assign a b =>
      fits limit a && fits limit b
    | .ifElse a b c | .binary a b c | .logical a b c =>
      fits limit a && fits limit b && fits limit c
    | .block statements => allFit limit statements
    | .function name params body => fits limit name && allFit limit params && fits limit body
    | .call callee paren arguments =>
      fits limit callee && fits limit paren && allFit limit arguments

def allFit : Nat → List Node → Bool
  | 0, _ => false
  | limit + 1, ns => ns.all (fits limit)

end

/-- The items of a list of nodes. An empty text or record passes for an empty list; a longer one holds
texts, which are no nodes. -/
def itemsOf (load : Json → Except LoadError Node) : Json → Except LoadError (List Node)
  | .list items => items.mapM load
  | .text s => if s.isEmpty then .ok [] else .error .notARecord
  | .record fields => if fields.isEmpty then .ok [] else .error .notARecord
  | _ => .error .notAList

/-- The node of a record with a form, its children loaded with `load` in the order in which they are
kept. -/
def ofFields (load : Json → Except LoadError Node) (fields : Json.Fields) :
    Except LoadError Node :=
  let child key := do load (← fields.require key)
  let child? key := load (fields.allow key)
  let children key := do itemsOf load (← fields.require key)
  match fields.allow "type" with
  | .text "Expression" => do return .expression (← child "expression")
  | .text "Print" => do return .print (← child "expression")
  | .text "Var" => do return .var (← child "name") (← child? "initializer")
  | .text "Block" => do return .block (← children "statements")
  | .text "If" => do
    return .ifElse (← child "condition") (← child "then_branch") (← child? "else_branch")
  | .text "While" => do return .whileDo (← child "condition") (← child "body")
  | .text "Function" => do
    return .function (← child "name") (← children "params") (← child "body")
  | .text "Return" => do return .ret (← child "keyword") (← child? "value")
  | .text "Literal" => do return .literal (← child "token")
  | .text "Grouping" => do return .grouping (← child "expression")
  | .text "Unary" => do return .unary (← child "operator") (← child "right")
  | .text "Binary" => do
    return .binary (← child "left") (← child "operator") (← child "right")
  | .text "Logical" => do
    return .logical (← child "left") (← child "operator") (← child "right")
  | .text "Variable" => do return .variable (← child "name")
  | .text "Assign" => do return .assign (← child "name") (← child "value")
  | .text "Call" => do
    return .call (← child "callee") (← child "paren") (← children "arguments")
  | form => .error (.unknownForm form)

/-- Loads a node; `frames` bounds how deep records may stand inside each other. -/
def ofJson : Nat → Json → Except LoadError Node
  | 0, _ => .error .tooDeep
  | _ + 1, .null => .ok .missing
  | frames + 1, .record fields =>
    if (Json.Fields.get? fields "token").isSome && (Json.Fields.get? fields "type").isNone then
      .token <$> Token.ofFields fields
    else ofFields (ofJson frames) fields
  | _ + 1, _ => .error .notARecord

end Node

namespace Program

def toJson (p : Program) : Json :=
  .record [("type", .text "Program"), ("body", .list (Node.allToJson p))]

/-- Whether the record of a program needs at most `limit` records and lists inside each other. -/
def fits (limit : Nat) (p : Program) : Bool := Node.allFit limit p

def ofJson (frames : Nat) : Json → Except LoadError Program
  | .record fields =>
    match Json.Fields.allow fields "type" with
    | .text "Program" => do
      Node.itemsOf (Node.ofJson frames) (← Json.Fields.require fields "body")
    | _ => .error .notAProgram
  | _ => .error .notAProgram

end Program

end Lox
