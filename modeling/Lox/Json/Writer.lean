import Lox.Json.Basic

/-!
JSON text of data, either on one line without blanks or with one item a line, two spaces deeper at
each level. Characters outside ASCII stand as they are; control characters are escaped.
-/

set_option autoImplicit false

namespace Lox.Json

inductive Layout where
  | line
  | indented
  deriving DecidableEq, Repr

/-- What stands before an item at a depth. -/
def Layout.gap : Layout → Nat → String
  | .line, _ => ""
  | .indented, depth => .ofList ('\n' :: List.replicate (2 * depth) ' ')

def Layout.colon : Layout → String
  | .line => ":"
  | .indented => ": "

def escapedChar (c : Char) : List Char :=
  if c = '"' ∨ c = '\\' then ['\\', c]
  else if c = '\n' then ['\\', 'n']
  else if c = '\r' then ['\\', 'r']
  else if c = '\t' then ['\\', 't']
  else if c = '\x08' then ['\\', 'b']
  else if c = '\x0c' then ['\\', 'f']
  else if c < ' ' then '\\' :: 'u' :: Text.hex 4 c.toNat
  else [c]

def escaped (s : String) : String := .ofList ('"' :: s.toList.flatMap escapedChar ++ ['"'])

/-- The compact form of a double, with words for the doubles that are no numbers. -/
def realText (x : Float) : String :=
  match Decimal.Binary.ofFloat x with
  | .nan => "NaN"
  | .infinite negative => if negative then "-Infinity" else "Infinity"
  | _ => Decimal.written x

mutual

/-- Appends the text of a value to `out`. -/
def writeOnto (layout : Layout) (depth : Nat) (out : String) : Json → String
  | .null => out ++ "null"
  | .bool b => out ++ (if b then "true" else "false")
  | .integer i => out ++ toString i
  | .real x => out ++ realText x
  | .text s => out ++ escaped s
  | .list [] => out ++ "[]"
  | .list (item :: items) =>
    let out := writeOnto layout (depth + 1) (out ++ "[" ++ layout.gap (depth + 1)) item
    writeItems layout (depth + 1) out items ++ layout.gap depth ++ "]"
  | .record [] => out ++ "\x7b\x7d"
  | .record ((key, value) :: fields) =>
    let out := out ++ "\x7b" ++ layout.gap (depth + 1) ++ escaped key ++ layout.colon
    let out := writeOnto layout (depth + 1) out value
    writeFields layout (depth + 1) out fields ++ layout.gap depth ++ "\x7d"

/-- Appends the items after the first. -/
def writeItems (layout : Layout) (depth : Nat) (out : String) : List Json → String
  | [] => out
  | item :: items =>
    let out := writeOnto layout depth (out ++ "," ++ layout.gap depth) item
    writeItems layout depth out items

def writeFields (layout : Layout) (depth : Nat) (out : String) : List (String × Json) → String
  | [] => out
  | (key, value) :: fields =>
    let out := out ++ "," ++ layout.gap depth ++ escaped key ++ layout.colon
    let out := writeOnto layout depth out value
    writeFields layout depth out fields

end

def write (layout : Layout) (j : Json) : String := j.writeOnto layout 0 ""

end Lox.Json
