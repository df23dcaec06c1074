import Lox.Decimal.Shortest
import Lox.Text.Ascii

/-!
Decimals read from digits, and the double nearest to a decimal.
-/

set_option autoImplicit false

namespace Lox

namespace Decimal

-- Powers are those of the core library, also where other powers are at hand.
attribute [local instance (high)] instPowNat

/-- The number that a run of digits writes. -/
def ofDigits (cs : List Char) : Nat := cs.foldl (fun n c => 10 * n + (c.toNat - '0'.toNat)) 0

/-- The decimal `whole.fraction * 10 ^ exponent`. -/
def ofParts (whole fraction : List Char) (exponent : Int) : Decimal :=
  ⟨ofDigits (whole ++ fraction), exponent - fraction.length⟩

/-- The bits of the double nearest to a decimal. Far outside the doubles' range the answer is known
without writing the power out. -/
def toBits (d : Decimal) : Nat :=
  let top := d.exponent + width d.digits
  if d.digits = 0 ∨ top < -400 then 0
  else if 400 < top then infinityBits
  else if 0 ≤ d.exponent then nearestBits (d.digits * 10 ^ d.exponent.toNat) 1
  else nearestBits d.digits (10 ^ (-d.exponent).toNat)

def toFloat (d : Decimal) : Float := .ofBits (.ofNat d.toBits)

/-- The digits after an exponent mark, with an optional sign; nothing else may follow. -/
def exponent? : List Char → Option Int
  | '-' :: ds => if ds ≠ [] ∧ ds.all isDigit then some (-(ofDigits ds : Int)) else none
  | '+' :: ds => if ds ≠ [] ∧ ds.all isDigit then some (ofDigits ds) else none
  | ds => if ds ≠ [] ∧ ds.all isDigit then some (ofDigits ds) else none

/-- Reads digits, an optional fraction and an optional exponent. -/
def ofChars? (cs : List Char) : Option Decimal :=
  let whole := cs.takeWhile isDigit
  let rest := cs.dropWhile isDigit
  let (fraction, rest) := match rest with
    | '.' :: r => (r.takeWhile isDigit, r.dropWhile isDigit)
    | r => ([], r)
  if whole = [] then none
  else match rest with
    | [] => some (ofParts whole fraction 0)
    | 'e' :: r => (exponent? r).map (ofParts whole fraction)
    | _ => none

end Decimal

end Lox
