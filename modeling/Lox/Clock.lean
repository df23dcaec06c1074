/-!
Clocks: sources of readings in seconds. A reading depends only on how many were taken before it.
-/

set_option autoImplicit false

namespace Lox

structure Clock where
  source : Nat → Float
  taken : Nat

namespace Clock

/-- The name of the builtin function that reads the clock. -/
def builtinName : String := "clock"

/-- The next reading. -/
def now (c : Clock) : Float × Clock := (c.source c.taken, { c with taken := c.taken + 1 })

/-- A clock that starts at a time and goes on by a microsecond a reading. -/
def steady (start : Float) : Clock := ⟨fun n => start + 0.000001 * n.toFloat, 0⟩

/-- The next readings. -/
def readings (c : Clock) : Nat → List Float
  | 0 => []
  | n + 1 => let (reading, c) := c.now; reading :: c.readings n

end Clock

end Lox
