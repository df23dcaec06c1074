import Lox.Json.Basic
import Lox.Text.Integer

/-!
Reads JSON text: one value with blanks around it. Beyond the standard, `NaN`, `Infinity` and
`-Infinity` are reals. Lists and records may stand inside each other only to a given depth.

A reader takes what is left of the text and gives a value and what is left then. The loops over items
and characters take a bound on their turns, which the length of the whole text always is.
-/

set_option autoImplicit false

namespace Lox.Json

inductive ReadError where
  | malformed
  | tooDeep
  | integerTooLong
  deriving DecidableEq, Repr

abbrev Read (α : Type) := Except ReadError (α × List Char)

def isGap (c : Char) : Bool := c = ' ' || c = '\t' || c = '\n' || c = '\r'

def skipGap (cs : List Char) : List Char := cs.dropWhile isGap

def hexDigit? (c : Char) : Option Nat :=
  if isDigit c then some (c.toNat - '0'.toNat)
  else if 'a' ≤ c && c ≤ 'f' then some (c.toNat - 'a'.toNat + 10)
  else if 'A' ≤ c && c ≤ 'F' then some (c.toNat - 'A'.toNat + 10)
  else none

/-- The number that four hexadecimal digits write. -/
def unit? (a b c d : Char) : Option Nat := do
  let a ← hexDigit? a
  let b ← hexDigit? b
  let c ← hexDigit? c
  let d ← hexDigit? d
  pure (((a * 16 + b) * 16 + c) * 16 + d)

def isHighUnit (u : Nat) : Bool := 0xd800 ≤ u && u < 0xdc00

def isLowUnit (u : Nat) : Bool := 0xdc00 ≤ u && u < 0xe000

/-- The character of a code point. Half of a pair that stands alone has none and is replaced. -/
def charOf (u : Nat) : Char := if isHighUnit u || isLowUnit u then '\ufffd' else Char.ofNat u

/-- What an escape of one letter stands for. -/
def escape? : Char → Option Char
  | '"' => some '"'
  | '\\' => some '\\'
  | '/' => some '/'
  | 'b' => some '\x08'
  | 'f' => some '\x0c'
  | 'n' => some '\n'
  | 'r' => some '\r'
  | 't' => some '\t'
  | _ => none

/-- The second half of a pair, when the text goes on with one. -/
def lowUnit? : List Char → Option (Nat × List Char)
  | '\\' :: 'u' :: a :: b :: c :: d :: rest => do
    let u ← unit? a b c d
    if isLowUnit u then some (u, rest) else none
  | _ => none

/-- Reads up to the closing quote; `done` holds what was read, last character first. -/
def readText : Nat → List Char → List Char → Read String
  | 0, _, _ => .error .malformed
  | _ + 1, done, '"' :: rest => .ok (.ofList done.reverse, rest)
  | turns + 1, done, '\\' :: 'u' :: a :: b :: c :: d :: rest =>
    match unit? a b c d with
    | none => .error .malformed
    | some high =>
      match isHighUnit high, lowUnit? rest with
      | true, some (low, rest) =>
        let c := Char.ofNat (0x10000 + (high - 0xd800) * 0x400 + (low - 0xdc00))
        readText turns (c :: done) rest
      | _, _ => readText turns (charOf high :: done) rest
  | turns + 1, done, '\\' :: e :: rest =>
    match escape? e with
    | none => .error .malformed
    | some c => readText turns (c :: done) rest
  | turns + 1, done, c :: rest =>
    if c < ' ' || c = '\\' then .error .malformed else readText turns (c :: done) rest
  | _ + 1, _, [] => .error .malformed

/-- The point and digits of a fraction; without a digit there is none. -/
def readFraction : List Char → List Char × List Char
  | '.' :: rest =>
    if (rest.takeWhile isDigit).isEmpty then ([], '.' :: rest)
    else (rest.takeWhile isDigit, rest.dropWhile isDigit)
  | rest => ([], rest)

/-- The exponent mark, sign and digits; without a digit there is no exponent. -/
def readExponent : List Char → Option Int × List Char
  | mark :: rest =>
    let (sign, digits) := match rest with
      | '-' :: r => (-1, r)
      | '+' :: r => (1, r)
      | r => (1, r)
    if (mark = 'e' || mark = 'E') && !(digits.takeWhile isDigit).isEmpty then
      (some (sign * (Decimal.ofDigits (digits.takeWhile isDigit) : Int)), digits.dropWhile isDigit)
    else (none, mark :: rest)
  | [] => (none, [])

/-- A number after its sign. It is an integer when it has neither fraction nor exponent; a leading
zero stands alone. -/
def readNumber (negative : Bool) (cs : List Char) : Read Json :=
  let whole := match cs with
    | '0' :: _ => ['0']
    | _ => cs.takeWhile isDigit
  let rest := cs.drop whole.length
  let (fraction, rest) := readFraction rest
  let (exponent, rest) := readExponent rest
  if whole.isEmpty then .error .malformed
  else if fraction.isEmpty && exponent.isNone then
    if Text.mostIntegerDigits < whole.length then .error .integerTooLong
    else
      let n : Int := Decimal.ofDigits whole
      .ok (.integer (if negative then -n else n), rest)
  else
    let x := (Decimal.ofParts whole fraction (exponent.getD 0)).toFloat
    .ok (.real (if negative then -x else x), rest)

/-- The items of a list after its first, up to the closing bracket. -/
def readItems (item : List Char → Read Json) : Nat → List Json → List Char → Read (List Json)
  | 0, _, _ => .error .malformed
  | turns + 1, done, cs =>
    match skipGap cs with
    | ']' :: rest => .ok (done.reverse, rest)
    | ',' :: rest =>
      match item (skipGap rest) with
      | .ok (j, rest) => readItems item turns (j :: done) rest
      | .error e => .error e
    | _ => .error .malformed

/-- A field: its key, a colon and its value. -/
def readField (turns : Nat) (item : List Char → Read Json) : List Char → Read (String × Json)
  | '"' :: rest =>
    match readText turns [] rest with
    | .error e => .error e
    | .ok (key, rest) =>
      match skipGap rest with
      | ':' :: rest =>
        match item (skipGap rest) with
        | .ok (j, rest) => .ok ((key, j), rest)
        | .error e => .error e
      | _ => .error .malformed
  | _ => .error .malformed

/-- The fields of a record after its first, up to the closing brace. -/
def readFields (field : List Char → Read (String × Json)) :
    Nat → List (String × Json) → List Char → Read Fields
  | 0, _, _ => .error .malformed
  | turns + 1, done, cs =>
    match skipGap cs with
    | '}' :: rest => .ok (.ofPairs done.reverse, rest)
    | ',' :: rest =>
      match field (skipGap rest) with
      | .ok (f, rest) => readFields field turns (f :: done) rest
      | .error e => .error e
    | _ => .error .malformed

/-- Reads one value; `depth` bounds how many lists and records may stand inside each other. -/
def readValue (turns : Nat) : Nat → List Char → Read Json
  | depth, cs =>
    match cs with
    | '"' :: rest => (readText turns [] rest).map fun (s, rest) => (.text s, rest)
    | 'n' :: 'u' :: 'l' :: 'l' :: rest => .ok (.null, rest)
    | 't' :: 'r' :: 'u' :: 'e' :: rest => .ok (.bool true, rest)
    | 'f' :: 'a' :: 'l' :: 's' :: 'e' :: rest => .ok (.bool false, rest)
    | 'N' :: 'a' :: 'N' :: rest => .ok (.real (0.0 / 0.0), rest)
    | 'I' :: 'n' :: 'f' :: 'i' :: 'n' :: 'i' :: 't' :: 'y' :: rest => .ok (.real (1.0 / 0.0), rest)
    | '-' :: 'I' :: 'n' :: 'f' :: 'i' :: 'n' :: 'i' :: 't' :: 'y' :: rest =>
      .ok (.real (-1.0 / 0.0), rest)
    | '-' :: rest => readNumber true rest
    | '[' :: rest =>
      match depth with
      | 0 => .error .tooDeep
      | depth + 1 =>
        match skipGap rest with
        | ']' :: rest => .ok (.list [], rest)
        | rest =>
          match readValue turns depth rest with
          | .error e => .error e
          | .ok (j, rest) =>
            match readItems (readValue turns depth) turns [j] rest with
            | .error e => .error e
            | .ok (items, rest) => .ok (.list items, rest)
    | '{' :: rest =>
      match depth with
      | 0 => .error .tooDeep
      | depth + 1 =>
        match skipGap rest with
        | '}' :: rest => .ok (.record [], rest)
        | rest =>
          match readField turns (readValue turns depth) rest with
          | .error e => .error e
          | .ok (f, rest) =>
            match readFields (readField turns (readValue turns depth)) turns [f] rest with
            | .error e => .error e
            | .ok (fields, rest) => .ok (.record fields, rest)
    | _ => readNumber false cs

/-- Reads a whole text, which may not begin with a byte order mark. -/
def read (depth : Nat) (s : String) : Except ReadError Json :=
  let cs := s.toList
  match readValue (cs.length + 1) depth (skipGap cs) with
  | .error e => .error e
  | .ok (j, rest) => if (skipGap rest).isEmpty then .ok j else .error .malformed

end Lox.Json
