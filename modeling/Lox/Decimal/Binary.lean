/-!
Doubles as integers times powers of two, and the double nearest to a ratio.
All arithmetic is on natural numbers, so nothing here rounds except `nearestBits`, which says how.
-/

set_option autoImplicit false

namespace Lox.Decimal

-- Powers are those of the core library, also where other powers are at hand.
attribute [local instance (high)] instPowNat

/-- What a double stands for. A finite one is `mantissa * 2 ^ exponent`, with its sign. -/
inductive Binary where
  | nan
  | infinite (negative : Bool)
  | finite (negative : Bool) (mantissa : Nat) (exponent : Int)
  deriving DecidableEq, Repr

/-- The least exponent a double can have. -/
def leastExponent : Int := -1074

/-- Reads the sign, the eleven exponent bits and the fraction. -/
def Binary.ofBits (bits : Nat) : Binary :=
  let negative := bits / 2 ^ (63 : Nat) % 2 == 1
  let field : Nat := bits / 2 ^ (52 : Nat) % 2 ^ (11 : Nat)
  let fraction : Nat := bits % 2 ^ (52 : Nat)
  if field = 2047 then
    if fraction = 0 then .infinite negative else .nan
  else if field = 0 then .finite negative fraction leastExponent
  else .finite negative (2 ^ (52 : Nat) + fraction) (leastExponent + field - 1)

def Binary.ofFloat (x : Float) : Binary := .ofBits x.toBits.toNat

/-- The integer that a finite double is, when it is one. -/
def Binary.integer? : Binary → Option Int
  | .finite negative mantissa exponent =>
    let magnitude :=
      if 0 ≤ exponent then some (mantissa * 2 ^ exponent.toNat)
      else if mantissa % 2 ^ (-exponent).toNat = 0 then some (mantissa / 2 ^ (-exponent).toNat)
      else none
    magnitude.map fun (m : Nat) => if negative then -(m : Int) else m
  | _ => none

/-- A finite double without its fraction. -/
def Binary.truncate : Binary → Int
  | .finite negative mantissa exponent =>
    let magnitude : Int :=
      if 0 ≤ exponent then mantissa * 2 ^ exponent.toNat else mantissa / 2 ^ (-exponent).toNat
    if negative then -magnitude else magnitude
  | _ => 0

/-- The integer next to `num / den`; a half goes to the even neighbour. -/
def roundRatio (num den : Nat) : Nat :=
  let low := num / den
  let rest := 2 * (num % den)
  if rest < den then low
  else if den < rest then low + 1
  else if low % 2 = 0 then low else low + 1

/-- The `n` with `2 ^ n ≤ num / den < 2 ^ (n + 1)`, for positive `num` and `den`. -/
def floorLog2 (num den : Nat) : Int :=
  let guess : Int := (num.log2 : Int) - den.log2
  let reached :=
    if 0 ≤ guess then den * 2 ^ guess.toNat ≤ num else den ≤ num * 2 ^ (-guess).toNat
  if reached then guess else guess - 1

/-- The bits of the infinite double. -/
def infinityBits : Nat := 2047 * 2 ^ (52 : Nat)

/-- The bits of the nonnegative double nearest to `num / den`, ties to the even mantissa. A mantissa
that rounds up to a power of two carries into the exponent bits by itself. -/
def nearestBits (num den : Nat) : Nat :=
  if num = 0 then 0
  else
    let exponent := max (floorLog2 num den - 52) leastExponent
    let mantissa :=
      if 0 ≤ exponent then roundRatio num (den * 2 ^ exponent.toNat)
      else roundRatio (num * 2 ^ (-exponent).toNat) den
    min infinityBits ((exponent - leastExponent).toNat * 2 ^ (52 : Nat) + mantissa)

/-- The double nearest to an integer. -/
def nearestInt (i : Int) : Float :=
  let x := Float.ofBits (UInt64.ofNat (nearestBits i.natAbs 1))
  if i < 0 then -x else x

end Lox.Decimal
