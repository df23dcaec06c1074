import Lox.Json.Reader
import Lox.Json.Writer
import Lox.Node.Record

/-!
Programs as text: the indented JSON of their records, and back.
-/

set_option autoImplicit false

namespace Lox

/-- Why a text holds no program: it is no JSON, or the data is no program. -/
inductive TextError where
  | unreadable (e : Json.ReadError)
  | noProgram (e : LoadError)
  deriving Repr

namespace Program

def toText (p : Program) : String := p.toJson.write .indented

def ofText (frames : Nat) (s : String) : Except TextError Program := do
  let j ← (Json.read frames s).mapError .unreadable
  (Program.ofJson frames j).mapError .noProgram

end Program

end Lox
