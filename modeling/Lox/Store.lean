import Lox.Value

/-!
The store: the bindings of all scopes there ever were. Environments are read and changed through it.
-/

set_option autoImplicit false

namespace Lox

/-- The bindings of a scope; a name is bound at most once. -/
structure Scope where
  bindings : List (Name × Value)
  deriving Inhabited

namespace Scope

def empty : Scope := ⟨[]⟩

def get? (s : Scope) (name : Name) : Option Value := s.bindings.lookup name

def binds (s : Scope) (name : Name) : Bool := (s.get? name).isSome

/-- Binds a name anew where it is bound, and at the end otherwise. -/
def setIn (name : Name) (value : Value) : List (Name × Value) → List (Name × Value)
  | [] => [(name, value)]
  | (n, v) :: rest => if n = name then (name, value) :: rest else (n, v) :: setIn name value rest

def set (s : Scope) (name : Name) (value : Value) : Scope := ⟨setIn name value s.bindings⟩

theorem lookup_setIn (name other : Name) (value : Value) (bs : List (Name × Value)) :
    (setIn name value bs).lookup other = if other = name then some value else bs.lookup other := by
  induction bs with
  | nil => by_cases h : other = name <;> simp [setIn, h]
  | cons b bs ih =>
    obtain ⟨n, v⟩ := b
    by_cases hn : n = name
    · subst hn
      by_cases h : other = n
      · simp [setIn, h]
      · simp [setIn, List.lookup_cons, beq_eq_false_iff_ne.2 h, h]
    · by_cases h : other = n
      · subst h
        simp [setIn, hn]
      · simp [setIn, List.lookup_cons, hn, beq_eq_false_iff_ne.2 h, ih]

theorem get?_set (s : Scope) (name other : Name) (value : Value) :
    (s.set name value).get? other = if other = name then some value else s.get? other :=
  lookup_setIn name other value s.bindings

@[simp] theorem get?_empty (name : Name) : empty.get? name = none := rfl

end Scope

structure Store where
  scopes : Array Scope
  deriving Inhabited

namespace Store

/-- A store with one scope. -/
def single : Store := ⟨#[.empty]⟩

def scope (store : Store) (id : ScopeId) : Scope := store.scopes.getD id .empty

/-- The place of the next scope. -/
def fresh (store : Store) : ScopeId := store.scopes.size

def addScope (store : Store) : Store := ⟨store.scopes.push .empty⟩

def set (store : Store) (id : ScopeId) (name : Name) (value : Value) : Store :=
  ⟨store.scopes.modify id (·.set name value)⟩

theorem scope_set (store : Store) (id other : ScopeId) (name : Name) (value : Value)
    (h : id < store.fresh) :
    (store.set id name value).scope other =
      if other = id then (store.scope id).set name value else store.scope other := by
  simp only [fresh] at h
  by_cases ho : other = id
  · subst ho
    simp [set, scope, Array.getD_eq_getD_getElem?, h, Array.getElem_modify]
  · simp [set, scope, Array.getD_eq_getD_getElem?, Array.getElem?_modify, Ne.symm ho, ho]

@[simp] theorem fresh_set (store : Store) (id : ScopeId) (name : Name) (value : Value) :
    (store.set id name value).fresh = store.fresh := by simp [set, fresh]

@[simp] theorem fresh_addScope (store : Store) : store.addScope.fresh = store.fresh + 1 := by
  simp [addScope, fresh]

end Store

namespace Environment

/-- The environment of a store with one scope. -/
def global : Environment := ⟨0, []⟩

/-- The innermost scope that binds a name. -/
def find? (e : Environment) (store : Store) (name : Name) : Option ScopeId :=
  e.scopes.find? fun id => (store.scope id).binds name

def get? (e : Environment) (store : Store) (name : Name) : Option Value :=
  e.scopes.findSome? fun id => (store.scope id).get? name

/-- Binds a name in the innermost scope. -/
def define (e : Environment) (store : Store) (name : Name) (value : Value) : Store :=
  store.set e.innermost name value

/-- Gives a new value to a name where it is bound; nothing when it is not. -/
def assign? (e : Environment) (store : Store) (name : Name) (value : Value) : Option Store :=
  (e.find? store name).map fun id => store.set id name value

/-- A capture has the same scopes, then and later. What is pushed on or popped off one of the two is
not seen by the other. -/
def capture (e : Environment) : Environment := e

/-- The environment with a new scope inside. -/
def enclose (e : Environment) (store : Store) : Environment × Store :=
  (e.capture.push store.fresh, store.addScope)

end Environment

end Lox
