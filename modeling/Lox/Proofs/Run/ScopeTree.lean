import Lox.Proofs.Run.Likeness
import Lox.Proofs.Run.Soundness

/-!
The tree of scopes. Each scope but the global one was opened inside another, and so has the scopes around
it once and for all. A tree holds a machine if its branches are the environment of the machine and those
of all functions that are bound.
-/

set_option autoImplicit false

namespace Lox

namespace Scope

theorem mem_of_get? {s : Scope} {name : Name} {v : Value} (h : s.get? name = some v) :
    (name, v) ∈ s.bindings := by
  obtain ⟨bs⟩ := s
  induction bs with
  | nil => cases h
  | cons b bs ih =>
    obtain ⟨n, w⟩ := b
    unfold get? at h ih
    rw [List.lookup_cons] at h
    by_cases hn : name = n
    · subst hn
      have hw : w = v := by simpa using h
      rw [hw]
      exact List.mem_cons_self
    · rw [beq_eq_false_iff_ne.2 hn] at h
      exact List.mem_cons_of_mem _ (ih h)

theorem mem_set {s : Scope} {name n : Name} {v w : Value}
    (h : (n, w) ∈ (s.set name v).bindings) : v = w ∨ (n, w) ∈ s.bindings := by
  obtain ⟨bs⟩ := s
  unfold set at h
  induction bs with
  | nil =>
    have hb : (n, w) = (name, v) := List.mem_singleton.1 h
    exact .inl (Prod.mk.inj hb).2.symm
  | cons b bs ih =>
    simp only [setIn] at h
    split at h
    · rcases List.mem_cons.1 h with hb | hb
      · exact .inl (Prod.mk.inj hb).2.symm
      · exact .inr (List.mem_cons_of_mem _ hb)
    · rcases List.mem_cons.1 h with hb | hb
      · rw [hb]
        exact .inr List.mem_cons_self
      · rcases ih hb with hv | hb
        · exact .inl hv
        · exact .inr (List.mem_cons_of_mem _ hb)

end Scope

/-- For each scope, the scopes around it, from the inside out. The first scope is the global one. -/
structure ScopeTree where
  outer : List (List ScopeId)
  root : outer[0]? = some []
  bare : ∀ {id : ScopeId}, outer[id]? = some [] → id = 0
  linked : ∀ {id i : ScopeId} {is : List ScopeId},
    outer[id]? = some (i :: is) → i < id ∧ outer[i]? = some is

namespace ScopeTree

theorem getElem?_of_prefix {α : Type} {l l' : List α} (h : l <+: l') {i : Nat} {a : α}
    (hi : l[i]? = some a) : l'[i]? = some a := by
  obtain ⟨more, rfl⟩ := h
  rw [List.getElem?_append_left (List.getElem?_eq_some_iff.1 hi).1]
  exact hi

/-- The tree of the global scope alone. -/
def single : ScopeTree where
  outer := [[]]
  root := rfl
  bare {id} h := by cases id <;> simp_all
  linked {id i is} h := by cases id <;> simp_all

/-- The environment is a branch. -/
def Has (F : ScopeTree) (e : Environment) : Prop := F.outer[e.innermost]? = some e.outer

/-- More scopes may have been opened, and nothing else happened. -/
def Grows (F G : ScopeTree) : Prop := F.outer <+: G.outer

variable {F G H : ScopeTree} {e e' : Environment}

theorem Grows.refl (F : ScopeTree) : F.Grows F := List.prefix_refl _

theorem Grows.trans (h : F.Grows G) (h' : G.Grows H) : F.Grows H := List.IsPrefix.trans h h'

theorem Has.mono (h : F.Has e) (hg : F.Grows G) : G.Has e := getElem?_of_prefix hg h

theorem getElem?_snoc {α : Type} {l : List α} {a b : α} {i : Nat} (h : (l ++ [a])[i]? = some b) :
    l[i]? = some b ∨ (i = l.length ∧ b = a) := by
  rcases Nat.lt_trichotomy i l.length with hlt | rfl | hgt
  · rw [List.getElem?_append_left hlt] at h
    exact .inl h
  · rw [List.getElem?_concat_length] at h
    exact .inr ⟨rfl, (Option.some.inj h).symm⟩
  · rw [List.getElem?_eq_none (by simpa using Nat.succ_le_of_lt hgt)] at h
    cases h

/-- A scope is opened inside a branch. -/
def enclose (F : ScopeTree) (e : Environment) (he : F.Has e) : ScopeTree where
  outer := F.outer ++ [e.scopes]
  root := getElem?_of_prefix (List.prefix_append _ _) F.root
  bare h := by
    rcases getElem?_snoc h with hid | ⟨-, hs⟩
    · exact F.bare hid
    · cases hs
  linked {id i is} h := by
    have hlink : F.outer[e.innermost]? = some e.outer := he
    rcases getElem?_snoc h with hid | ⟨rfl, hs⟩
    · obtain ⟨hi, his⟩ := F.linked hid
      exact ⟨hi, getElem?_of_prefix (List.prefix_append _ _) his⟩
    · obtain ⟨rfl, rfl⟩ := List.cons.inj hs
      exact ⟨(List.getElem?_eq_some_iff.1 hlink).1, getElem?_of_prefix (List.prefix_append _ _) hlink⟩

theorem grows_enclose (he : F.Has e) : F.Grows (F.enclose e he) := List.prefix_append _ _

theorem has_enclose (he : F.Has e) : (F.enclose e he).Has (e.push F.outer.length) := by
  change (F.outer ++ [e.scopes])[F.outer.length]? = some e.scopes
  simp

/-- In a branch, the scopes around each scope are the ones that the tree has for it. -/
theorem Has.outer (h : F.Has e) {before after : List ScopeId} {id : ScopeId}
    (hs : e.scopes = before ++ id :: after) : F.outer[id]? = some after := by
  induction before generalizing e with
  | nil =>
    obtain ⟨rfl, rfl⟩ := List.cons.inj hs
    exact h
  | cons i before ih =>
    obtain ⟨rfl, houter⟩ := List.cons.inj hs
    have hlink : F.outer[e.innermost]? = some e.outer := h
    rw [houter] at hlink
    cases before with
    | nil => exact (F.linked hlink).2
    | cons j before =>
      exact ih (e := ⟨j, before ++ id :: after⟩) (F.linked hlink).2 rfl

/-- Along a branch the scopes get older, down to the global one. -/
theorem Has.pairwise (h : F.Has e) : e.scopes.Pairwise (· > ·) ∧ e.scopes.getLast? = some 0 := by
  obtain ⟨innermost, outer⟩ := e
  induction outer generalizing innermost with
  | nil =>
    have hzero : innermost = 0 := F.bare h
    subst hzero
    exact ⟨List.pairwise_singleton _ _, rfl⟩
  | cons i is ih =>
    obtain ⟨hlt, hlink⟩ := F.linked h
    obtain ⟨hpairwise, hlast⟩ := ih i hlink
    refine ⟨?_, by simpa [Environment.scopes] using hlast⟩
    refine List.pairwise_cons.2 ⟨fun j hj => ?_, hpairwise⟩
    rcases List.mem_cons.1 hj with rfl | hj
    · exact hlt
    · exact Nat.lt_trans ((List.pairwise_cons.1 hpairwise).1 j hj) hlt

theorem Has.lt (h : F.Has e) {id : ScopeId} (hid : id ∈ e.scopes) : id < F.outer.length := by
  obtain ⟨before, after, hs⟩ := List.append_of_mem hid
  exact (List.getElem?_eq_some_iff.1 (h.outer hs)).1

variable {P Q : Closure → Prop} {m : Machine} {v : Value}

/-- A value that, if it is a function, has a branch for environment and is of a sort. -/
def Knows (F : ScopeTree) (P : Closure → Prop) (v : Value) : Prop :=
  ∀ f, v = .function f → F.Has f.environment ∧ P f

structure Holds (F : ScopeTree) (P : Closure → Prop) (m : Machine) : Prop where
  fresh : m.store.fresh = F.outer.length
  environment : F.Has m.environment
  bound : ∀ {id : ScopeId} {name : Name} {v : Value},
    (name, v) ∈ (m.store.scope id).bindings → F.Knows P v

theorem Knows.mono (h : F.Knows P v) (hg : F.Grows G) : G.Knows P v :=
  fun f hf => ⟨(h f hf).1.mono hg, (h f hf).2⟩

theorem knows_of_closure?_eq_none (h : v.closure? = none) : F.Knows P v := by
  rintro f rfl
  cases h

namespace Holds

theorem mono (h : F.Holds P m) (hP : ∀ f, P f → Q f) : F.Holds Q m where
  fresh := h.fresh
  environment := h.environment
  bound hv f hf := ⟨(h.bound hv f hf).1, hP f (h.bound hv f hf).2⟩

theorem inEnvironment (h : F.Holds P m) (he : F.Has e) :
    F.Holds P { m with environment := e } := ⟨h.fresh, he, h.bound⟩

theorem get? (h : F.Holds P m) {name : Name} (hv : e.get? m.store name = some v) :
    F.Knows P v := by
  obtain ⟨id, -, hid⟩ := List.exists_of_findSome?_eq_some hv
  exact h.bound (Scope.mem_of_get? hid)

theorem set (h : F.Holds P m) (hv : F.Knows P v) (id : ScopeId) (name : Name) :
    F.Holds P { m with store := m.store.set id name v } := by
  refine ⟨by simpa using h.fresh, h.environment, fun {other n w} hw => ?_⟩
  rcases Nat.lt_or_ge id m.store.fresh with hid | hid
  · change (n, w) ∈ ((m.store.set id name v).scope other).bindings at hw
    rw [Store.scope_set m.store id other name v hid] at hw
    by_cases ho : other = id
    · rw [if_pos ho] at hw
      rcases Scope.mem_set hw with rfl | hold
      · exact hv
      · exact h.bound hold
    · rw [if_neg ho] at hw
      exact h.bound hw
  · rw [Store.set_of_fresh_le hid] at hw
    exact h.bound hw

theorem addScope (h : F.Holds P m) (he : F.Has e) :
    (F.enclose e he).Holds P { m with store := m.store.addScope } := by
  have hg := grows_enclose he
  refine ⟨?_, h.environment.mono hg, fun {id name v} hv => ?_⟩
  · change m.store.addScope.fresh = (F.outer ++ [e.scopes]).length
    rw [Store.fresh_addScope, h.fresh, List.length_append, List.length_singleton]
  · change (name, v) ∈ (m.store.addScope.scope id).bindings at hv
    rw [Store.scope_addScope_eq] at hv
    exact (h.bound hv).mono hg

theorem has_push (h : F.Holds P m) (he : F.Has e) :
    (F.enclose e he).Has (e.push m.store.fresh) := by
  rw [h.fresh]
  exact has_enclose he

theorem pushScope (h : F.Holds P m) :
    (F.enclose m.environment h.environment).Holds P m.pushScope :=
  (h.addScope h.environment).inEnvironment (h.has_push h.environment)

end Holds

/-- The tree of the global scope holds a fresh machine, whatever functions it is about. -/
theorem holds_fresh (P : Closure → Prop) (clock : Clock) : single.Holds P (Machine.fresh clock) := by
  have hbare : single.Holds P (Machine.bare clock) := by
    refine ⟨rfl, rfl, fun {id name v} hv => ?_⟩
    have hs : Store.single.scope id = .empty := by cases id <;> rfl
    change (name, v) ∈ (Store.single.scope id).bindings at hv
    rw [hs] at hv
    cases hv
  exact hbare.set (knows_of_closure?_eq_none rfl) _ _

end ScopeTree

end Lox
