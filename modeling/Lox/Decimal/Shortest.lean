import Lox.Decimal.Binary

/-!
The shortest decimal of a positive double: of the decimals that read back as that double, one with
the fewest digits, and of those the nearest. For 1, 2, … 17 digits the two neighbours of the double on
the grid of that many digits are tried. If any point of a grid reads back, one of the two does.
-/

set_option autoImplicit false

namespace Lox

/-- `digits * 10 ^ exponent`. -/
structure Decimal where
  digits : Nat
  exponent : Int
  deriving DecidableEq, Repr

namespace Decimal

-- Powers are those of the core library, also where other powers are at hand.
attribute [local instance (high)] instPowNat

/-- How many decimal digits a positive number has; one for zero. -/
def width (n : Nat) : Nat := (Nat.toDigits 10 n).length

/-- The numbers `low / den … high / den` around `value / den`; the ends belong when `closed`. -/
structure Interval where
  value : Nat
  low : Nat
  high : Nat
  den : Nat
  closed : Bool
  deriving DecidableEq, Repr

/-- The reals that round to `mantissa * 2 ^ exponent`. Below a power of two the next double is half
as far, unless the exponent is the least one already. -/
def Interval.around (mantissa : Nat) (exponent : Int) : Interval :=
  let unit := if 2 ≤ exponent then 2 ^ (exponent - 2).toNat else 1
  let den := if 2 ≤ exponent then 1 else 2 ^ (2 - exponent).toNat
  let below := if mantissa = 2 ^ (52 : Nat) ∧ leastExponent < exponent then 1 else 2
  { value := 4 * mantissa * unit
    low := (4 * mantissa - below) * unit
    high := (4 * mantissa + 2) * unit
    den
    closed := mantissa % 2 = 0 }

/-- Whether `point / (scale * den)` lies inside, for ends multiplied by `scale`. -/
def Interval.holds (i : Interval) (scale point : Nat) : Bool :=
  if i.closed then i.low * scale ≤ point && point ≤ i.high * scale
  else i.low * scale < point && point < i.high * scale

/-- The `e` with `10 ^ (e - 1) ≤ value / den < 10 ^ e`. -/
def Interval.magnitude (i : Interval) : Int :=
  if i.den ≤ i.value then width (i.value / i.den)
  else 1 - (width ((i.den + i.value - 1) / i.value - 1) : Int)

/-- The better of the two neighbours of the value on the grid `10 ^ power`, if one lies inside. Of two
equally near ones the even one is taken. -/
def Interval.onGrid? (i : Interval) (power : Int) : Option Decimal :=
  let scale := if 0 ≤ power then 1 else 10 ^ (-power).toNat
  let step := (if 0 ≤ power then 10 ^ power.toNat else 1) * i.den
  let value := i.value * scale
  let below := value / step
  let down := i.holds scale (below * step)
  let up := i.holds scale ((below + 1) * step)
  let rest := 2 * (value % step)
  let nearer := if rest < step ∨ (rest = step ∧ below % 2 = 0) then below else below + 1
  match down, up with
  | true, true => some ⟨nearer, power⟩
  | true, false => some ⟨below, power⟩
  | false, true => some ⟨below + 1, power⟩
  | false, false => none

/-- Moves the zeros at the end of the digits into the exponent. -/
def trim : Nat → Decimal → Decimal
  | 0, d => d
  | turns + 1, d =>
    if d.digits ≠ 0 ∧ d.digits % 10 = 0 then trim turns ⟨d.digits / 10, d.exponent + 1⟩ else d

/-- All digits of `mantissa * 2 ^ exponent`. -/
def exact (mantissa : Nat) (exponent : Int) : Decimal :=
  if 0 ≤ exponent then ⟨mantissa * 2 ^ exponent.toNat, 0⟩
  else ⟨mantissa * 5 ^ (-exponent).toNat, exponent⟩

/-- So many digits are enough for any double. -/
def mostDigits : Nat := 17

/-- The shortest decimal of the positive double `mantissa * 2 ^ exponent`. Were there none, all its
digits would do. -/
def shortest (mantissa : Nat) (exponent : Int) : Decimal :=
  let i := Interval.around mantissa exponent
  let counts := (List.range mostDigits).map (· + 1)
  match counts.findSome? fun (count : Nat) => i.onGrid? (i.magnitude - count) with
  | some d => trim mostDigits d
  | none => exact mantissa exponent

end Decimal

end Lox
