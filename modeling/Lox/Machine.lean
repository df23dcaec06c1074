import Lox.Clock
import Lox.Store

/-!
The machine that runs programs: the bindings of all scopes, the environment that is current, and what
was printed and noted down so far.
-/

set_option autoImplicit false

namespace Lox

structure Machine where
  store : Store
  environment : Environment
  output : String
  trace : Array String
  clock : Clock

namespace Machine

/-- Binds the builtin functions in the global scope. -/
def installBuiltins (m : Machine) : Machine :=
  { m with
    store := m.store.set m.environment.root (.word Clock.builtinName) (.builtin Clock.builtinName) }

/-- A machine with an empty global scope. -/
def bare (clock : Clock) : Machine :=
  { store := .single, environment := .global, output := "", trace := #[], clock }

/-- A machine ready to run its first program. -/
def fresh (clock : Clock) : Machine := (bare clock).installBuiltins

def pushScope (m : Machine) : Machine :=
  let id := m.store.fresh
  { m with store := m.store.addScope, environment := m.environment.push id }

def popScope (m : Machine) : Machine :=
  { m with environment := m.environment.pop?.getD m.environment }

end Machine

end Lox
