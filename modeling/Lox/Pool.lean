import Lox.Store

/-!
Pools: environments side by side on one store. An action names an environment by its place in the
pool. It changes that environment's stack, bindings that the others may share, or neither, and it may
add an environment at the end.
-/

set_option autoImplicit false

namespace Lox

structure Pool where
  store : Store
  environments : Array Environment

namespace Pool

inductive Action where
  | push
  | pop
  | define (name : Name) (value : Value)
  | assign (name : Name) (value : Value)
  | get (name : Name)
  | capture
  | enclose
  | create
  | within (name : Name) (value : Value) (other : Name)

inductive Answer where
  | done
  | value (v : Value)
  | inner (depth : Nat) (v : Value)
  | undefined (name : Name)
  | lastScope

/-- The pool of one environment with one scope. -/
def single : Pool := ⟨.single, #[.global]⟩

def environment (p : Pool) (i : Nat) : Environment := p.environments.getD i .global

def replace (p : Pool) (i : Nat) (e : Environment) : Pool :=
  { p with environments := p.environments.setIfInBounds i e }

def add (p : Pool) (e : Environment) : Pool := { p with environments := p.environments.push e }

def withStore (p : Pool) (store : Store) : Pool := { p with store }

/-- The value of a name in an environment, or the answer that it has none. -/
def lookup (store : Store) (e : Environment) (name : Name) (found : Value → Answer) : Answer :=
  match e.get? store name with
  | some v => found v
  | none => .undefined name

/-- Does an action on the environment at a place. `within` defines a name in a new scope, looks
another one up there and leaves the scope. -/
def step (p : Pool) (i : Nat) (action : Action) : Answer × Pool :=
  let e := p.environment i
  match action with
  | .push =>
    let (inside, store) := e.enclose p.store
    (.done, (p.withStore store).replace i inside)
  | .pop =>
    match e.pop? with
    | some e => (.done, p.replace i e)
    | none => (.lastScope, p)
  | .define name v => (.done, p.withStore (e.define p.store name v))
  | .assign name v =>
    match e.assign? p.store name v with
    | some store => (.done, p.withStore store)
    | none => (.undefined name, p)
  | .get name => (lookup p.store e name .value, p)
  | .capture => (.done, p.add e.capture)
  | .enclose =>
    let (inside, store) := e.enclose p.store
    (.done, (p.withStore store).add inside)
  | .create => (.done, (p.withStore p.store.addScope).add ⟨p.store.fresh, []⟩)
  | .within name v other =>
    let (inside, store) := e.enclose p.store
    let store := inside.define store name v
    (lookup store inside other (.inner inside.depth), p.withStore store)

end Pool

end Lox
