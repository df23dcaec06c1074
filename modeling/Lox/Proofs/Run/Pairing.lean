import Lox.Proofs.Run.Likeness
import Lox.Proofs.Run.Soundness

/-!
Stores whose scopes correspond. A pairing says which scope of one store stands for which of another; the
stores match if paired scopes bind the same names to values that are related. Looking a name up, binding
it and opening a scope give results that match again.
-/

set_option autoImplicit false

namespace Lox

variable {V : Value → Value → Prop}

/-- The same names in the same order, with values that are related. -/
def Scope.Like (V : Value → Value → Prop) (s s' : Scope) : Prop :=
  List.Forall₂ (fun b b' => b'.1 = b.1 ∧ V b.2 b'.2) s.bindings s'.bindings

namespace Scope

/-- What is displayed of the bindings. -/
def shown (s : Scope) : List (Name × String) := s.bindings.map fun b => (b.1, b.2.display)

theorem like_empty : Scope.Like V .empty .empty := .nil

theorem Like.refl {s : Scope} (h : ∀ b ∈ s.bindings, V b.2 b.2) : s.Like V s :=
  List.forall₂_same.2 fun b hb => ⟨rfl, h b hb⟩

theorem Like.get? {s s' : Scope} (h : s.Like V s') (name : Name) :
    Option.Rel V (s.get? name) (s'.get? name) := by
  obtain ⟨bs⟩ := s
  obtain ⟨bs'⟩ := s'
  have hbs : List.Forall₂ (fun b b' => b'.1 = b.1 ∧ V b.2 b'.2) bs bs' := h
  clear h
  unfold Scope.get?
  induction hbs with
  | nil => exact .none
  | @cons b b' bs bs' hb _ ih =>
    obtain ⟨n, v⟩ := b
    obtain ⟨n', v'⟩ := b'
    obtain ⟨rfl, hv⟩ := hb
    by_cases hn : name = n'
    · subst hn
      simpa using Option.Rel.some hv
    · simpa [List.lookup_cons, beq_eq_false_iff_ne.2 hn] using ih

theorem Like.binds {s s' : Scope} (h : s.Like V s') (name : Name) :
    s'.binds name = s.binds name := by
  have hget := h.get? name
  unfold Scope.binds
  cases hs : s.get? name with
  | none =>
    rw [hs] at hget
    generalize s'.get? name = o at hget
    cases hget
    rfl
  | some v =>
    rw [hs] at hget
    generalize s'.get? name = o at hget
    cases hget
    rfl

theorem Like.set {s s' : Scope} (h : s.Like V s') (name : Name) {v v' : Value} (hv : V v v') :
    (s.set name v).Like V (s'.set name v') := by
  obtain ⟨bs⟩ := s
  obtain ⟨bs'⟩ := s'
  have hbs : List.Forall₂ (fun b b' => b'.1 = b.1 ∧ V b.2 b'.2) bs bs' := h
  clear h
  unfold Scope.Like Scope.set
  induction hbs with
  | nil => exact .cons ⟨rfl, hv⟩ .nil
  | @cons b b' bs bs' hb hbs ih =>
    obtain ⟨n, w⟩ := b
    obtain ⟨n', w'⟩ := b'
    obtain ⟨rfl, hw⟩ := hb
    simp only [setIn]
    split
    · exact .cons ⟨rfl, hv⟩ hbs
    · exact .cons ⟨rfl, hw⟩ ih

theorem Like.shown_eq {T : Token → Token → Prop} {E : Environment → Environment → Prop}
    (hT : ∀ {t t'}, T t t' → t.SameText t') {s s' : Scope} (h : s.Like (Value.Like T E) s') :
    s'.shown = s.shown := by
  obtain ⟨bs⟩ := s
  obtain ⟨bs'⟩ := s'
  have hbs : List.Forall₂ (fun b b' => b'.1 = b.1 ∧ Value.Like T E b.2 b'.2) bs bs' := h
  clear h
  unfold shown
  induction hbs with
  | nil => rfl
  | cons hb _ ih => rw [List.map_cons, List.map_cons, ih, hb.1, hb.2.display_eq hT]

end Scope

/-- Which scope of one store stands for which of another; none stands for two. -/
structure Pairing where
  pairs : ScopeId → ScopeId → Prop
  eq_iff : ∀ {i i' j j'}, pairs i i' → pairs j j' → (i = j ↔ i' = j')

namespace Pairing

/-- Each scope stands for itself. -/
def same : Pairing := ⟨Eq, by rintro i _ j _ rfl rfl; rfl⟩

variable (p : Pairing)

def Environments (e e' : Environment) : Prop := List.Forall₂ p.pairs e.scopes e'.scopes

theorem environments_same {e e' : Environment} : same.Environments e e' ↔ e' = e := by
  obtain ⟨i, o⟩ := e
  obtain ⟨i', o'⟩ := e'
  change List.Forall₂ Eq (i :: o) (i' :: o') ↔ _
  rw [List.forall₂_eq_eq_eq]
  simp [eq_comm]

/-- Paired scopes are both there or both not yet, and what they bind is related. -/
structure Matches (V : Value → Value → Prop) (st st' : Store) : Prop where
  there : ∀ {i i'}, p.pairs i i' → (i < st.fresh ↔ i' < st'.fresh)
  scopes : ∀ {i i'}, p.pairs i i' → (st.scope i).Like V (st'.scope i')

namespace Matches

variable {p} {st st' : Store} {e e' : Environment}

theorem get? (h : p.Matches V st st') (he : p.Environments e e') (name : Name) :
    Option.Rel V (e.get? st name) (e'.get? st' name) := by
  unfold Environments at he
  unfold Environment.get?
  generalize e.scopes = is, e'.scopes = is' at he
  induction he with
  | nil => exact .none
  | @cons i i' is is' hi _ ih =>
    have hget := (h.scopes hi).get? name
    rw [List.findSome?_cons, List.findSome?_cons]
    cases hs : (st.scope i).get? name with
    | none =>
      rw [hs] at hget
      generalize (st'.scope i').get? name = o at hget
      cases hget
      exact ih
    | some v =>
      rw [hs] at hget
      generalize (st'.scope i').get? name = o at hget
      cases hget with
      | some hv => exact .some hv

theorem find? (h : p.Matches V st st') (he : p.Environments e e') (name : Name) :
    Option.Rel p.pairs (e.find? st name) (e'.find? st' name) := by
  unfold Environments at he
  unfold Environment.find?
  generalize e.scopes = is, e'.scopes = is' at he
  induction he with
  | nil => exact .none
  | @cons i i' is is' hi _ ih =>
    rw [List.find?_cons, List.find?_cons, (h.scopes hi).binds name]
    cases (st.scope i).binds name with
    | true => exact .some hi
    | false => exact ih

theorem set (h : p.Matches V st st') {id id' : ScopeId} (hid : p.pairs id id') (name : Name)
    {v v' : Value} (hv : V v v') : p.Matches V (st.set id name v) (st'.set id' name v') := by
  refine ⟨fun hi => by simpa using h.there hi, fun {i i'} hi => ?_⟩
  by_cases hlt : id < st.fresh
  · rw [Store.scope_set st id i name v hlt, Store.scope_set st' id' i' name v' ((h.there hid).1 hlt)]
    by_cases heq : i = id
    · rw [if_pos heq, if_pos ((p.eq_iff hi hid).1 heq)]
      exact (h.scopes hid).set name hv
    · rw [if_neg heq, if_neg (mt (p.eq_iff hi hid).2 heq)]
      exact h.scopes hi
  · rw [Store.set_of_fresh_le (Nat.not_lt.1 hlt),
      Store.set_of_fresh_le (Nat.not_lt.1 (mt (h.there hid).2 hlt))]
    exact h.scopes hi

theorem define (h : p.Matches V st st') (he : p.Environments e e') (name : Name) {v v' : Value}
    (hv : V v v') : p.Matches V (e.define st name v) (e'.define st' name v') := by
  unfold Environments Environment.scopes at he
  cases he with
  | cons hid _ => exact h.set hid name hv

theorem assign? (h : p.Matches V st st') (he : p.Environments e e') (name : Name) {v v' : Value}
    (hv : V v v') :
    Option.Rel (p.Matches V) (e.assign? st name v) (e'.assign? st' name v') := by
  have hfind := h.find? he name
  unfold Environment.assign?
  generalize e.find? st name = o, e'.find? st' name = o' at hfind
  cases hfind with
  | none => exact .none
  | some hid => exact .some (h.set hid name hv)

/-- Scopes are opened side by side if they are paired or neither is. -/
theorem addScope (h : p.Matches V st st')
    (hfresh : ∀ {i i'}, p.pairs i i' → (i = st.fresh ↔ i' = st'.fresh)) :
    p.Matches V st.addScope st'.addScope := by
  refine ⟨fun {i i'} hi => ?_, fun hi => ?_⟩
  · rw [Store.fresh_addScope, Store.fresh_addScope, Nat.lt_succ_iff_lt_or_eq,
      Nat.lt_succ_iff_lt_or_eq]
    exact or_congr (h.there hi) (hfresh hi)
  · rw [Store.scope_addScope_eq, Store.scope_addScope_eq]
    exact h.scopes hi

end Matches

end Pairing

end Lox
