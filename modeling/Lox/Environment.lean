/-!
Environments. An environment is a stack of scopes, the innermost first and the global one last. It
holds the scopes' places in a store and not their bindings, so that environments share scopes: what
one binds in a scope, all that have the scope see.
-/

set_option autoImplicit false

namespace Lox

abbrev ScopeId := Nat

structure Environment where
  innermost : ScopeId
  outer : List ScopeId
  deriving DecidableEq, Repr, Inhabited

namespace Environment

/-- The scopes, innermost first. -/
def scopes (e : Environment) : List ScopeId := e.innermost :: e.outer

def depth (e : Environment) : Nat := e.scopes.length

/-- The global scope. -/
def root (e : Environment) : ScopeId := e.outer.getLastD e.innermost

def push (e : Environment) (id : ScopeId) : Environment := ⟨id, e.scopes⟩

/-- The environment without its innermost scope. The global scope stays. -/
def pop? (e : Environment) : Option Environment :=
  match e.outer with
  | [] => none
  | id :: outer => some ⟨id, outer⟩

@[simp] theorem scopes_push (e : Environment) (id : ScopeId) :
    (e.push id).scopes = id :: e.scopes := rfl

@[simp] theorem pop?_push (e : Environment) (id : ScopeId) : (e.push id).pop? = some e := rfl

end Environment

end Lox
