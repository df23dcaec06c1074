import Lox.Decimal.Writing
import Lox.Text.Quoted

/-!
JSON data: the values a JSON text can hold. Integers and reals are told apart, as their texts are, and
a record keeps its fields in order.
-/

set_option autoImplicit false

namespace Lox

inductive Json where
  | null
  | bool (b : Bool)
  | integer (i : Int)
  | real (x : Float)
  | text (s : String)
  | list (items : List Json)
  | record (fields : List (String × Json))
  deriving Repr, Inhabited

namespace Json

abbrev Fields := List (String × Json)

/-- The value of a field. -/
def Fields.get? (fields : Fields) (key : String) : Option Json := fields.lookup key

/-- Sets a field: in its place if it is there, at the end if not. -/
def Fields.set (fields : Fields) (key : String) (value : Json) : Fields :=
  match fields with
  | [] => [(key, value)]
  | (k, v) :: rest => if k = key then (k, value) :: rest else (k, v) :: Fields.set rest key value

/-- The fields in reading order; of two with one key the later value stands in the earlier's place. -/
def Fields.ofPairs (pairs : List (String × Json)) : Fields :=
  pairs.foldl (fun fields (key, value) => fields.set key value) []

/-- The kind of a value, by its short name. -/
def kindName : Json → String
  | .null => "NoneType"
  | .bool _ => "bool"
  | .integer _ => "int"
  | .real _ => "float"
  | .text _ => "str"
  | .list _ => "list"
  | .record _ => "dict"

mutual

/-- The text of a value inside another one, where texts are quoted. -/
def inner : Json → String
  | .null => "None"
  | .bool b => if b then "True" else "False"
  | .integer i => toString i
  | .real x => Decimal.written x
  | .text s => Text.quoted s
  | .list items => "[" ++ innerItems "" items ++ "]"
  | .record fields => "\x7b" ++ innerFields "" fields ++ "\x7d"

/-- The items, with `gap` before the first and a comma between two. -/
def innerItems (gap : String) : List Json → String
  | [] => ""
  | item :: items => gap ++ inner item ++ innerItems ", " items

def innerFields (gap : String) : List (String × Json) → String
  | [] => ""
  | (key, value) :: fields =>
    gap ++ Text.quoted key ++ ": " ++ inner value ++ innerFields ", " fields

end

/-- The text of a value on its own: a text as it is, anything else as inside another value. -/
def shown : Json → String
  | .text s => s
  | j => j.inner

/-- A value as a number: booleans count as 0 and 1. -/
inductive Numeral where
  | whole (i : Int)
  | broken (x : Float)
  deriving DecidableEq

def numeral? : Json → Option Numeral
  | .bool b => some (.whole (if b then 1 else 0))
  | .integer i => some (.whole i)
  | .real x =>
    match (Decimal.Binary.ofFloat x).integer? with
    | some i => some (.whole i)
    | none => some (.broken x)
  | _ => none

mutual

/-- Sameness of values: numbers by what they denote, lists item by item, records field by field in
any order. Unlike in arithmetic, what is no number is the same as itself. -/
def same : Json → Json → Bool
  | .list xs, .list ys => sameItems xs ys
  | .record xs, .record ys => xs.length = ys.length && sameFields xs ys
  | .text s, .text t => s = t
  | .null, .null => true
  | x, y =>
    match x.numeral?, y.numeral? with
    | some a, some b => a = b
    | _, _ => false

def sameItems : List Json → List Json → Bool
  | [], [] => true
  | x :: xs, y :: ys => same x y && sameItems xs ys
  | _, _ => false

def sameFields : List (String × Json) → List (String × Json) → Bool
  | [], _ => true
  | (key, x) :: xs, ys =>
    (match Fields.get? ys key with
      | some y => same x y
      | none => false) && sameFields xs ys

end

end Json

end Lox
