import Lox.Decimal.Reading

/-!
The two written forms of a double.

`written` is exact and compact: the shortest digits, always with a point or an exponent, and with an
exponent below `10 ^ -4` and from `10 ^ 16` on. `plain` is what a program prints: never an exponent,
all digits of a whole number and no fraction for it.
-/

set_option autoImplicit false

namespace Lox.Decimal

/-- The decimal digits of a number, without leading zeros. -/
def digitsOf (n : Nat) : List Char := Nat.toDigits 10 n

/-- Digits with the decimal point after the first `point` of them, zeros filling what is missing. A
whole number has no point. -/
def positional (digits : List Char) (point : Int) : List Char :=
  if point ≤ 0 then '0' :: '.' :: List.replicate (-point).toNat '0' ++ digits
  else if digits.length ≤ point.toNat then
    digits ++ List.replicate (point.toNat - digits.length) '0'
  else digits.take point.toNat ++ '.' :: digits.drop point.toNat

/-- How many of a decimal's digits stand before the point. -/
def point (d : Decimal) : Int := d.exponent + width d.digits

/-- An exponent has its sign and at least two digits. -/
def exponentText (e : Int) : List Char :=
  let ds := digitsOf e.natAbs
  'e' :: (if e < 0 then '-' else '+') :: (if ds.length < 2 then '0' :: ds else ds)

/-- One digit, the others after a point, and the exponent. -/
def scientific (d : Decimal) : List Char :=
  let tail := exponentText (d.point - 1)
  match digitsOf d.digits with
  | c :: r@(_ :: _) => c :: '.' :: r ++ tail
  | cs => cs ++ tail

/-- The exponents that are written positionally. -/
def isPositional (d : Decimal) : Bool := -4 < d.point && d.point ≤ 16

/-- The compact form of a shortest decimal. -/
def compact (d : Decimal) : List Char :=
  if d.isPositional then
    let cs := positional (digitsOf d.digits) d.point
    if cs.contains '.' then cs else cs ++ ['.', '0']
  else d.scientific

def signed (negative : Bool) (cs : List Char) : String :=
  .ofList (if negative then '-' :: cs else cs)

/-- The compact form of any double: `1.0`, `0.1`, `1e-05`, `1.5e+300`, `-0.0`, `inf`, `nan`. -/
def written (x : Float) : String :=
  match Binary.ofFloat x with
  | .nan => "nan"
  | .infinite negative => if negative then "-inf" else "inf"
  | .finite negative 0 _ => signed negative ['0', '.', '0']
  | .finite negative mantissa exponent => signed negative (shortest mantissa exponent).compact

/-- The digits of a positive double without any exponent. -/
def expanded (mantissa : Nat) (exponent : Int) : List Char :=
  match (Binary.finite false mantissa exponent).integer? with
  | some n => digitsOf n.natAbs
  | none =>
    let d := shortest mantissa exponent
    positional (digitsOf d.digits) d.point

/-- The form a program prints: `1`, `0.1`, `0.00001`, `-0`, `inf`, `NaN`. -/
def plain (x : Float) : String :=
  match Binary.ofFloat x with
  | .nan => "NaN"
  | .infinite negative => if negative then "-inf" else "inf"
  | .finite negative 0 _ => signed negative ['0']
  | .finite negative mantissa exponent => signed negative (expanded mantissa exponent)

/-- Reads the compact form back. -/
def ofWritten? (text : String) : Option Float :=
  match text.toList with
  | ['n', 'a', 'n'] => some (0.0 / 0.0)
  | ['i', 'n', 'f'] => some (1.0 / 0.0)
  | ['-', 'i', 'n', 'f'] => some (-1.0 / 0.0)
  | '-' :: cs => (ofChars? cs).map (-·.toFloat)
  | cs => (ofChars? cs).map toFloat

end Lox.Decimal
