import Lox.Text.Blank

/-!
Integers written in text: white space around them, a sign, and decimal digits of any script, with
single underscores between digits. The separators that are no white space may not stand around an
integer. How many digits an integer may have is fixed here for every reader of integers.
-/

set_option autoImplicit false

namespace Lox.Text

/-- The zeros of the scripts that have decimal digits; the other nine follow each. -/
def zeros : List Nat :=
  [0x30, 0x660, 0x6f0, 0x7c0, 0x966, 0x9e6, 0xa66, 0xae6, 0xb66, 0xbe6, 0xc66, 0xce6, 0xd66, 0xde6,
   0xe50, 0xed0, 0xf20, 0x1040, 0x1090, 0x17e0, 0x1810, 0x1946, 0x19d0, 0x1a80, 0x1a90, 0x1b50,
   0x1bb0, 0x1c40, 0x1c50, 0xa620, 0xa8d0, 0xa900, 0xa9d0, 0xa9f0, 0xaa50, 0xabf0, 0xff10, 0x104a0,
   0x10d30, 0x11066, 0x110f0, 0x11136, 0x111d0, 0x112f0, 0x11450, 0x114d0, 0x11650, 0x116c0,
   0x11730, 0x118e0, 0x11950, 0x11c50, 0x11d50, 0x11da0, 0x16a60, 0x16ac0, 0x16b50, 0x1d7ce,
   0x1d7d8, 0x1d7e2, 0x1d7ec, 0x1d7f6, 0x1e140, 0x1e2f0, 0x1e950, 0x1fbf0]

/-- The value of a decimal digit. -/
def digit? (c : Char) : Option Nat :=
  (zeros.find? fun first => first ≤ c.toNat && c.toNat < first + 10).map (c.toNat - ·)

def isDecimal (c : Char) : Bool := (digit? c).isSome

/-- Reads on after a digit; `total` is the number so far. -/
def digitsFrom? (total : Nat) : List Char → Option Nat
  | [] => some total
  | '_' :: c :: cs => do
    let d ← digit? c
    digitsFrom? (10 * total + d) cs
  | c :: cs => do
    let d ← digit? c
    digitsFrom? (10 * total + d) cs

/-- An integer with more digits than this is not read. Leading zeros count, underscores do not. -/
def mostIntegerDigits : Nat := 4300

def natural? (cs : List Char) : Option Nat :=
  if mostIntegerDigits < cs.countP (· ≠ '_') then none
  else
    match cs with
    | [] => none
    | c :: cs => do
      let d ← digit? c
      digitsFrom? d cs

/-- The integer that a text writes. -/
def integer? (s : String) : Option Int :=
  match stripEnds isSpace s.toList with
  | '-' :: cs => (natural? cs).map fun (n : Nat) => -(n : Int)
  | '+' :: cs => (natural? cs).map Int.ofNat
  | cs => (natural? cs).map Int.ofNat

end Lox.Text
