import Lox.Pool
import Lox.Proofs.Run.Vacancy

/-!
Environments that share scopes. Main statement: after any actions on a pool, a name that is bound or given
a value in one environment changes in another one just where that one has the same scope and no scope
further inside hides the name, and what is pushed on or popped off one is not seen in any other.
-/

set_option autoImplicit false

namespace Lox

namespace Environment

/-- The environment has a scope, and no scope further inside binds a name. -/
def Sees (e : Environment) (store : Store) (name : Name) (id : ScopeId) : Prop :=
  ∃ inside outside, e.scopes = inside ++ id :: outside ∧
    ∀ i ∈ inside, (store.scope i).binds name = false

/-- No scope stands twice in an environment, and all of them are there. -/
structure Valid (store : Store) (e : Environment) : Prop where
  nodup : e.scopes.Nodup
  lt : ∀ id ∈ e.scopes, id < store.fresh

variable {e : Environment} {store : Store} {name : Name} {id : ScopeId}

namespace Valid

theorem mono {more : Store} (h : e.Valid store) (hle : store.fresh ≤ more.fresh) : e.Valid more :=
  ⟨h.nodup, fun id hid => Nat.lt_of_lt_of_le (h.lt id hid) hle⟩

theorem set (h : e.Valid store) (id : ScopeId) (name : Name) (v : Value) :
    e.Valid (store.set id name v) := h.mono (by simp)

theorem bare (h : id < store.fresh) : Valid store ⟨id, []⟩ := by
  refine ⟨by simp [scopes], fun i hi => ?_⟩
  obtain rfl := List.mem_singleton.1 hi
  exact h

theorem enclose (h : e.Valid store) : (e.enclose store).1.Valid (e.enclose store).2 := by
  have hfresh : store.fresh ∉ e.scopes := fun hm => Nat.lt_irrefl _ (h.lt _ hm)
  refine ⟨List.nodup_cons.2 ⟨hfresh, h.nodup⟩, fun id hid => ?_⟩
  change id < store.addScope.fresh
  rw [Store.fresh_addScope]
  rcases List.mem_cons.1 hid with rfl | hid
  · exact Nat.lt_succ_self _
  · exact Nat.lt_succ_of_lt (h.lt id hid)

theorem pop {e' : Environment} (h : e.Valid store) (hp : e.pop? = some e') : e'.Valid store := by
  obtain ⟨innermost, outer⟩ := e
  cases outer with
  | nil => cases hp
  | cons i is =>
    obtain rfl : (⟨i, is⟩ : Environment) = e' := Option.some.inj hp
    exact ⟨(List.nodup_cons.1 h.nodup).2, fun id hid => h.lt id (List.mem_cons_of_mem _ hid)⟩

end Valid

/-- A name that a scope binds is looked up there if the scope is seen. -/
theorem Sees.get? (h : e.Sees store name id) {v : Value}
    (hv : (store.scope id).get? name = some v) : e.get? store name = some v := by
  obtain ⟨inside, outside, hs, hfree⟩ := h
  have hnone : inside.findSome? (fun i => (store.scope i).get? name) = none :=
    List.findSome?_eq_none_iff.2 fun i hi =>
      Option.not_isSome_iff_eq_none.1 (Bool.eq_false_iff.1 (hfree i hi))
  rw [Environment.get?, hs, List.findSome?_append, hnone, Option.none_or, List.findSome?_cons, hv]

/-- A name is found in a scope just if the scope binds it and is seen. -/
theorem find?_eq_some_iff :
    e.find? store name = some id ↔ (store.scope id).binds name = true ∧ e.Sees store name id := by
  simp [find?, Sees, List.find?_eq_some_iff_append]

/-- The new value is looked up wherever the scope is seen. -/
theorem get?_set_of_sees (he : e.Valid store) (h : e.Sees store name id) (v : Value) :
    e.get? (store.set id name v) name = some v := by
  obtain ⟨inside, outside, hs, hfree⟩ := h
  have hlt : id < store.fresh := he.lt id (by simp [hs])
  have hnot : id ∉ inside := by
    have hnodup := he.nodup
    rw [hs] at hnodup
    exact fun hid => (List.nodup_append.1 hnodup).2.2 id hid id List.mem_cons_self rfl
  refine Sees.get? ⟨inside, outside, hs, fun i hi => ?_⟩ ?_
  · have hne : i ≠ id := fun hi' => hnot (hi' ▸ hi)
    rw [Store.scope_set_of_ne store name v hne]
    exact hfree i hi
  · rw [Store.scope_set store id id name v hlt, if_pos rfl, Scope.get?_set, if_pos rfl]

/-- What other scopes bind, and what the scope binds to other names, stays. -/
theorem scope_get?_set {i : ScopeId} {other : Name} (h : other = name → i ≠ id) (v : Value) :
    ((store.set id name v).scope i).get? other = (store.scope i).get? other := by
  by_cases hid : i = id
  · subst hid
    have hne : other ≠ name := fun ho => h ho rfl
    rcases Nat.lt_or_ge i store.fresh with hlt | hge
    · rw [Store.scope_set store i i name v hlt, if_pos rfl, Scope.get?_set, if_neg hne]
    · rw [Store.set_of_fresh_le hge]
  · rw [Store.scope_set_of_ne store name v hid]

theorem findSome?_set {other : Name} {ids : List ScopeId} (h : other = name → id ∉ ids)
    (v : Value) : ids.findSome? (fun i => ((store.set id name v).scope i).get? other) =
      ids.findSome? fun i => (store.scope i).get? other := by
  induction ids with
  | nil => rfl
  | cons i ids ih =>
    have hi : other = name → i ≠ id := fun ho hi => h ho (hi ▸ List.mem_cons_self)
    have hids : other = name → id ∉ ids := fun ho hid => h ho (List.mem_cons_of_mem _ hid)
    rw [List.findSome?_cons, List.findSome?_cons, scope_get?_set hi, ih hids]

/-- Every other lookup is the one before. -/
theorem get?_set_of_not_sees {other : Name} (h : ¬ (other = name ∧ e.Sees store name id))
    (v : Value) : e.get? (store.set id name v) other = e.get? store other := by
  unfold Environment.get?
  by_cases ho : other = name
  · subst ho
    by_cases hid : id ∈ e.scopes
    · obtain ⟨inside, outside, hs, hnot⟩ := List.eq_append_cons_of_mem hid
      -- The scope is hidden by one further inside, and that one is as before.
      have hhidden : ∃ i ∈ inside, (store.scope i).binds other = true := by
        by_contra hfree
        refine h ⟨rfl, inside, outside, hs, fun i hi => Bool.eq_false_iff.2 fun hb => ?_⟩
        exact hfree ⟨i, hi, hb⟩
      obtain ⟨i, hi, hb⟩ := hhidden
      have hsome : (inside.findSome? fun i => (store.scope i).get? other).isSome :=
        List.findSome?_isSome_iff.2 ⟨i, hi, hb⟩
      obtain ⟨w, hw⟩ := Option.isSome_iff_exists.1 hsome
      rw [hs, List.findSome?_append, List.findSome?_append, findSome?_set fun _ => hnot, hw,
        Option.some_or, Option.some_or]
    · exact findSome?_set (fun _ => hid) v
  · exact findSome?_set (fun h => absurd h ho) v

/-- A new scope holds no name, so that nothing is looked up in another way. -/
theorem get?_addScope (e : Environment) (store : Store) (name : Name) :
    e.get? store.addScope name = e.get? store name := by
  unfold Environment.get?
  exact congrArg (e.scopes.findSome? ·) (funext fun i => by rw [Store.scope_addScope_eq])

theorem get?_enclose (e : Environment) (store : Store) (name : Name) :
    (e.enclose store).1.get? (e.enclose store).2 name = e.get? store name :=
  ((Store.Vacant.fresh store).get?_push e name).trans (get?_addScope e store name)

end Environment

namespace Pool

/-- The value of a name in the environment at a place. -/
def value? (p : Pool) (i : Nat) (name : Name) : Option Value :=
  (p.environment i).get? p.store name

/-- The pools that actions lead to from the pool of one environment. -/
inductive Reachable : Pool → Prop where
  | single : Reachable .single
  | step {p : Pool} (h : Reachable p) {i : Nat} (hi : i < p.environments.size) (action : Action) :
      Reachable (p.step i action).2

/-- A name has a new value in some environments of a pool. No other lookup in any of them is changed. -/
def Updates (p q : Pool) (name : Name) (v : Value) (sees : Environment → Prop) : Prop :=
  ∀ j, j < p.environments.size → ∀ other,
    (other = name ∧ sees (p.environment j) → q.value? j other = some v) ∧
    (¬ (other = name ∧ sees (p.environment j)) → q.value? j other = p.value? j other)

def Valid (p : Pool) : Prop := ∀ i, i < p.environments.size → (p.environment i).Valid p.store

variable {p : Pool} {i j : Nat} {e : Environment}

theorem environment_replace_self (hi : i < p.environments.size) (e : Environment) :
    (p.replace i e).environment i = e := by
  simp [replace, environment, hi]

theorem environment_replace_of_ne (h : j ≠ i) (e : Environment) :
    (p.replace i e).environment j = p.environment j := by
  simp [replace, environment, Array.getD_eq_getD_getElem?, Array.getElem?_setIfInBounds_ne h.symm]

theorem environment_add (hj : j < p.environments.size) (e : Environment) :
    (p.add e).environment j = p.environment j := by
  simp [add, environment, Array.getD_eq_getD_getElem?, Array.getElem?_push, Nat.ne_of_lt hj]

theorem environment_add_size (p : Pool) (e : Environment) :
    (p.add e).environment p.environments.size = e := by
  simp [add, environment]

namespace Valid

theorem withStore (h : p.Valid) {store : Store} (hle : p.store.fresh ≤ store.fresh) :
    (p.withStore store).Valid := fun i hi => (h i hi).mono hle

theorem replace (h : p.Valid) (he : e.Valid p.store) (i : Nat) : (p.replace i e).Valid := by
  intro j hj
  have hsize : j < p.environments.size := by simpa [Pool.replace] using hj
  by_cases hij : j = i
  · subst hij
    rw [environment_replace_self hsize]
    exact he
  · rw [environment_replace_of_ne hij]
    exact h j hsize

theorem add (h : p.Valid) (he : e.Valid p.store) : (p.add e).Valid := by
  intro j hj
  have hle : j < p.environments.size + 1 := by simpa [Pool.add] using hj
  rcases Nat.lt_succ_iff_lt_or_eq.1 hle with hlt | rfl
  · rw [environment_add hlt]
    exact h j hlt
  · rw [environment_add_size]
    exact he

theorem step (h : p.Valid) (hi : i < p.environments.size) (action : Action) :
    (p.step i action).2.Valid := by
  have he := h i hi
  have hgrown : p.store.fresh ≤ p.store.addScope.fresh := by simp
  cases action with
  | push => exact (h.withStore hgrown).replace he.enclose i
  | pop =>
    simp only [Pool.step]
    split
    next e' hp => exact h.replace (he.pop hp) i
    next => exact h
  | define name v => exact h.withStore (by simp [Environment.define])
  | assign name v =>
    simp only [Pool.step]
    split
    next store hs =>
      obtain ⟨id, -, rfl⟩ := Option.map_eq_some_iff.1 hs
      exact h.withStore (by simp)
    next => exact h
  | get name => exact h
  | capture => exact h.add he
  | enclose => exact (h.withStore hgrown).add he.enclose
  | create => exact (h.withStore hgrown).add (.bare (by simp [Pool.withStore]))
  | within name v other =>
    exact h.withStore (by simp [Environment.define])

end Valid

theorem Reachable.valid (h : p.Reachable) : p.Valid := by
  induction h with
  | single =>
    intro i hi
    obtain rfl : i = 0 := Nat.lt_one_iff.1 hi
    exact .bare Nat.zero_lt_one
  | step _ hi action ih => exact ih.step hi action

/-- A new binding in a scope is seen by all environments that see the scope, and by no others. -/
theorem Valid.updates_set (h : p.Valid) (id : ScopeId) (name : Name) (v : Value) :
    p.Updates (p.withStore (p.store.set id name v)) name v (·.Sees p.store name id) := by
  refine fun j hj other => ⟨?_, fun hnot => Environment.get?_set_of_not_sees hnot v⟩
  rintro ⟨rfl, hsees⟩
  exact Environment.get?_set_of_sees (h j hj) hsees v

/-- A scope that binds a name is seen just where the name is found in it. -/
theorem Valid.updates_assign (h : p.Valid) {d : ScopeId} {name : Name}
    (hd : (p.environment i).find? p.store name = some d) (v : Value) :
    p.Updates (p.withStore (p.store.set d name v)) name v (·.find? p.store name = some d) := by
  obtain ⟨hbinds, -⟩ := Environment.find?_eq_some_iff.1 hd
  have hiff : ∀ e : Environment, e.find? p.store name = some d ↔ e.Sees p.store name d :=
    fun e => Environment.find?_eq_some_iff.trans (and_iff_right hbinds)
  simpa only [Updates, hiff] using h.updates_set d name v

/-- A name that a scope binds already can be given a new value there, and no name is bound anew. -/
theorem binds_set_of_binds {store : Store} {d : ScopeId} {name : Name}
    (h : (store.scope d).binds name = true) (v : Value) (id : ScopeId) (n : Name) :
    ((store.set d name v).scope id).binds n ↔ (store.scope id).binds n := by
  rw [Store.binds_set]
  refine or_iff_left_of_imp ?_
  rintro ⟨rfl, -, rfl⟩
  exact h

/-- An environment that is added is looked up as such, and the others as before. -/
theorem value?_add {store : Store} (hstore : ∀ (e : Environment) (other : Name),
      e.get? store other = e.get? p.store other) (e : Environment) (other : Name) :
    ((p.withStore store).add e).value? p.environments.size other = e.get? store other ∧
      ∀ j, j < p.environments.size →
        ((p.withStore store).add e).value? j other = p.value? j other := by
  have hsize : (p.withStore store).environments.size = p.environments.size := rfl
  refine ⟨?_, fun j hj => ?_⟩
  · unfold value?
    rw [← hsize, environment_add_size]
    rfl
  · unfold value?
    rw [environment_add (hsize ▸ hj)]
    exact hstore _ other

/-- What an action on one environment of a pool changes in all of them, after any actions before. A new
binding is seen by the environments that have its scope and bind the name in none further inside. A
new value is seen by those that find the name in the same scope; where the name is not found, nothing
changes. Pushing and popping are not seen by other environments, and one that is added has all the
bindings of the one it was made from. The last scope stays. -/
theorem environments_share_scopes {p : Pool} (h : p.Reachable) (i : Nat) (name : Name) (v : Value) :
    ((p.step i (.define name v)).1 = .done ∧
      p.Updates (p.step i (.define name v)).2 name v
        (·.Sees p.store name (p.environment i).innermost)) ∧
    (∀ d, (p.environment i).find? p.store name = some d →
      (p.step i (.assign name v)).1 = .done ∧
      p.Updates (p.step i (.assign name v)).2 name v (·.find? p.store name = some d) ∧
      ∀ id n, ((p.step i (.assign name v)).2.store.scope id).binds n ↔
        (p.store.scope id).binds n) ∧
    ((p.environment i).find? p.store name = none →
      p.step i (.assign name v) = (.undefined name, p)) ∧
    (∀ j, j ≠ i → ∀ other,
      (p.step i .push).2.value? j other = p.value? j other ∧
      (p.step i .pop).2.value? j other = p.value? j other) ∧
    (∀ action, action = .capture ∨ action = .enclose → ∀ other,
      (p.step i action).2.environments.size = p.environments.size + 1 ∧
      (p.step i action).2.value? p.environments.size other = p.value? i other ∧
      ∀ j, j < p.environments.size →
        (p.step i action).2.value? j other = p.value? j other) ∧
    ((p.environment i).depth = 1 → p.step i .pop = (.lastScope, p)) := by
  have hvalid := h.valid
  refine ⟨⟨rfl, hvalid.updates_set _ name v⟩, fun d hd => ?_, fun hnone => ?_,
    fun j hj other => ⟨?_, ?_⟩, ?_, fun hdepth => ?_⟩
  · obtain ⟨hbinds, -⟩ := Environment.find?_eq_some_iff.1 hd
    have hstep : p.step i (.assign name v) = (.done, p.withStore (p.store.set d name v)) := by
      simp [step, Environment.assign?, hd]
    rw [hstep]
    exact ⟨rfl, hvalid.updates_assign hd v, fun id n => binds_set_of_binds hbinds v id n⟩
  · simp [step, Environment.assign?, hnone]
  · change (((p.withStore p.store.addScope).replace i _).environment j).get? _ other = _
    rw [environment_replace_of_ne hj]
    exact Environment.get?_addScope _ _ other
  · simp only [step]
    split
    next e' hp =>
      change ((p.replace i e').environment j).get? _ other = _
      rw [environment_replace_of_ne hj]
      rfl
    next => rfl
  · rintro action (rfl | rfl) other
    · exact ⟨Array.size_push .., value?_add (fun _ _ => rfl) _ other⟩
    · obtain ⟨hnew, hold⟩ := value?_add (fun e => e.get?_addScope p.store)
        ((p.environment i).enclose p.store).1 other
      exact ⟨Array.size_push .., hnew.trans ((p.environment i).get?_enclose p.store other), hold⟩
  · have houter : (p.environment i).outer = [] := List.length_eq_zero_iff.1 (Nat.succ.inj hdepth)
    simp [step, Environment.pop?, houter]

/-- Two environments that share a scope, the second with one more inside, which binds a name. -/
def nestedPool : Pool :=
  let pushed := (single.step 0 .push).2
  let captured := (pushed.step 0 .capture).2
  ((captured.step 1 .push).2.step 1 (.define (.word "b") .nil)).2

theorem environments_share_scopes_nested :
    nestedPool.Reachable ∧
    (nestedPool.step 0 (.define (.word "a") (.bool true))).2.value? 1 (.word "a") =
      some (.bool true) ∧
    (nestedPool.step 0 (.define (.word "b") (.bool true))).2.value? 1 (.word "b") = some .nil := by
  have hreachable : nestedPool.Reachable :=
    (((Reachable.single.step (by decide) _).step (by decide) _).step (by decide) _).step
      (by decide) _
  have hsize : 1 < nestedPool.environments.size := by decide
  obtain ⟨⟨-, ha⟩, -⟩ := environments_share_scopes hreachable 0 (.word "a") (.bool true)
  obtain ⟨⟨-, hb⟩, -⟩ := environments_share_scopes hreachable 0 (.word "b") (.bool true)
  refine ⟨hreachable, (ha 1 hsize _).1 ⟨rfl, [2], [0], rfl, by decide⟩, ?_⟩
  refine ((hb 1 hsize _).2 ?_).trans rfl
  -- The scope that both have comes after the one that binds the name.
  rintro ⟨-, inside, outside, hs, hfree⟩
  cases inside with
  | nil => cases hs
  | cons id inside =>
    obtain ⟨rfl, -⟩ := List.cons.inj hs
    exact absurd (hfree _ List.mem_cons_self) (by decide)

end Pool

end Lox
