import Lox.Proofs.Run.Steps

/-!
Steps that keep to a sort of values. From a store that binds such values alone a step leaves one again, and
its result or its stop is of a sort as well. The rules follow the steps that the evaluator is made of; which
sorts there are is left open.
-/

set_option autoImplicit false

namespace Lox

variable {V : Value → Prop}

/-- Only values of a sort are bound. -/
def Store.Holds (V : Value → Prop) (store : Store) : Prop :=
  ∀ id name v, (store.scope id).get? name = some v → V v

/-- A statement that returns does so with a value of a sort. -/
def Completion.Holds (V : Value → Prop) : Completion → Prop
  | .normal => True
  | .returned v => V v

namespace Store

theorem set_of_fresh_le {store : Store} {id : ScopeId} (h : store.fresh ≤ id) (name : Name)
    (v : Value) : store.set id name v = store := by
  have hid : store.scopes[id]? = none := Array.getElem?_eq_none h
  have hs : store.scopes.modify id (·.set name v) = store.scopes := by
    refine Array.ext_getElem? fun i => ?_
    rw [Array.getElem?_modify]
    split
    next hi => rw [← hi, hid]; rfl
    next => rfl
  rw [set, hs]

/-- A scope that is not there has no bindings, and neither has a new one. -/
theorem scope_addScope_eq (store : Store) (id : ScopeId) :
    store.addScope.scope id = store.scope id := by
  simp only [addScope, scope, Array.getD_eq_getD_getElem?, Array.getElem?_push]
  split
  next hi => simp [hi]
  next => rfl

namespace Holds

theorem single : Store.single.Holds V := by
  intro id name v hv
  have hs : Store.single.scope id = .empty := by
    cases id <;> rfl
  rw [hs] at hv
  cases hv

theorem set {store : Store} (h : store.Holds V) {v : Value} (hv : V v) (id : ScopeId)
    (name : Name) : (store.set id name v).Holds V := by
  rcases Nat.lt_or_ge id store.fresh with hid | hid
  · intro other n w hw
    rw [scope_set store id other name v hid] at hw
    split at hw
    · rw [Scope.get?_set] at hw
      split at hw
      · obtain rfl : v = w := Option.some.inj hw
        exact hv
      · exact h id n w hw
    · exact h other n w hw
  · rw [set_of_fresh_le hid]
    exact h

theorem addScope {store : Store} (h : store.Holds V) : store.addScope.Holds V := by
  intro id name v hv
  rw [scope_addScope_eq] at hv
  exact h id name v hv

theorem get? {store : Store} (h : store.Holds V) {e : Environment} {name : Name} {v : Value}
    (hv : e.get? store name = some v) : V v := by
  obtain ⟨id, -, hid⟩ := List.exists_of_findSome?_eq_some hv
  exact h id name v hid

end Holds

end Store

namespace Run

variable {α β : Type}

/-- A step that from a store of values of a sort gives results of one sort or stops in ways of another,
and in either case leaves such a store. -/
def Confined (V : Value → Prop) (E : Stop → Prop) (P : α → Prop) (step : Run α) : Prop :=
  ∀ m, m.store.Holds V → (step m).2.store.Holds V ∧
    match (step m).1 with
    | .ok a => P a
    | .error stop => E stop

namespace Confined

variable {E : Stop → Prop} {P : α → Prop} {Q : β → Prop}

theorem pure {a : α} (h : P a) : Confined V E P (pure a : Run α) := fun _ hm => ⟨hm, h⟩

theorem throw {stop : Stop} (h : E stop) : Confined V E P (throw stop : Run α) :=
  fun _ hm => ⟨hm, h⟩

theorem ok {step : Run α} (h : Confined V E P step) {m m' : Machine} {a : α}
    (hm : m.store.Holds V) (hs : step m = (.ok a, m')) : P a ∧ m'.store.Holds V := by
  obtain ⟨hstore, hr⟩ := h m hm
  rw [hs] at hstore hr
  exact ⟨hr, hstore⟩

theorem bind {x : Run α} {f : α → Run β} (hx : Confined V E P x)
    (hf : ∀ a, P a → Confined V E Q (f a)) : Confined V E Q (x >>= f) := by
  intro m hm
  obtain ⟨hs, hr⟩ := hx m hm
  rw [bind_apply]
  cases hxm : x m with
  | mk r m' =>
    rw [hxm] at hs hr
    cases r with
    | error stop => exact ⟨hs, hr⟩
    | ok a => exact hf a hr m' hs

theorem ite {c : Prop} [Decidable c] {x y : Run α} (hx : c → Confined V E P x)
    (hy : ¬ c → Confined V E P y) : Confined V E P (if c then x else y) := by
  split
  next h => exact hx h
  next h => exact hy h

theorem note (s : Settings) (level : Nat) (line : String) :
    Confined V E (fun _ => True) (note s level line) := by
  intro m hm
  unfold Run.note
  split <;> exact ⟨hm, trivial⟩

theorem print (line : String) : Confined V E (fun _ => True) (print line) :=
  fun _ hm => ⟨hm, trivial⟩

theorem get : Confined V E (fun _ => True) (MonadState.get : Run Machine) :=
  fun _ hm => ⟨hm, trivial⟩

theorem token {n : Node} (h : (∀ t, n ≠ .token t) → E (.malformed .noToken)) :
    Confined V E (fun t => n = .token t) (token n) := by
  cases n with
  | token t => exact pure rfl
  | _ => exact throw (h nofun)

theorem blockOf {n : Node} (h : (∀ ns, n ≠ .block ns) → E (.malformed .noBlock)) :
    Confined V E (fun ns => n = .block ns) (blockOf n) := by
  cases n with
  | block ns => exact pure rfl
  | _ => exact throw (h nofun)

section Name

variable {t : Token} (hname : t.name? = none → E (.malformed .noName))
include hname

theorem name : Confined V E (fun _ => True) (name t) := by
  unfold Run.name
  split
  next => exact pure trivial
  next h => exact throw (hname h)

theorem define {v : Value} (hv : V v) : Confined V E (fun _ => True) (define t v) :=
  (name hname).bind fun n _ _ hm => ⟨hm.set hv _ n, trivial⟩

variable (hundefined : E (.failed ⟨t.line, .undefinedVariable t.lexeme⟩))
include hundefined

theorem lookup : Confined V E V (lookup t) := by
  refine (name hname).bind fun n _ m hm => ?_
  simp only [bind_apply, get_apply]
  cases hv : m.environment.get? m.store n with
  | none => exact ⟨hm, hundefined⟩
  | some v => exact ⟨hm, hm.get? hv⟩

theorem assign {v : Value} (hv : V v) : Confined V E (fun _ => True) (assign t v) := by
  refine (name hname).bind fun n _ m hm => ?_
  simp only [bind_apply, get_apply]
  cases m.environment.find? m.store n with
  | none => exact ⟨hm, hundefined⟩
  | some id => exact ⟨hm.set hv id n, trivial⟩

end Name

theorem operated {t : Token} {r : Except Fault Value} (hok : ∀ v, r = .ok v → V v)
    (hfault : ∀ f, r = .error f → E (.failed ⟨t.line, f⟩)) : Confined V E V (operated t r) := by
  cases r with
  | ok v => exact pure (hok v rfl)
  | error f => exact throw (hfault f rfl)

theorem bindParams {params : List Node} (hp : ∀ p ∈ params, ∀ v, V v →
      Confined V E (fun _ => True) (do Run.define (← Run.token p) v)) {vs : List Value}
    (hvs : ∀ v ∈ vs, V v) : Confined V E (fun _ => True) (bindParams params vs) := by
  induction params generalizing vs with
  | nil => cases vs <;> exact pure trivial
  | cons p params ih =>
    cases vs with
    | nil => exact pure trivial
    | cons v vs =>
      have hfirst := hp p (by simp) v (hvs v (by simp))
      have hrest : Confined V E (fun _ => True) (Run.bindParams params vs) :=
        ih (fun p hp' => hp p (by simp [hp'])) fun v hv => hvs v (by simp [hv])
      rw [Run.bindParams, ← bind_assoc]
      exact hfirst.bind fun _ _ => hrest

theorem enclose (e : Environment) : Confined V E (fun _ => True) (enclose e) :=
  fun _ hm => ⟨hm.addScope, trivial⟩

theorem readClock (hV : ∀ x, V (.number x)) : Confined V E V readClock :=
  fun m hm => ⟨hm, hV m.clock.now.1⟩

theorem inScope {step : Run α} (h : Confined V E P step) : Confined V E P (inScope step) :=
  fun m hm => h m.pushScope hm.addScope

theorem inEnvironment {step : Run α} (h : Confined V E P step) (e : Environment) :
    Confined V E P (inEnvironment e step) := fun m hm => h { m with environment := e } hm

/-- Catching the exhaustion of a step leaves its other stops, and the fault at the place. -/
theorem caughtAt {E' : Stop → Prop} {place : Node} {step : Run α} (h : Confined V E P step)
    (hplace : E' (faultAt .stackOverflow place))
    (hrest : ∀ stop, E stop → stop ≠ .exhausted → E' stop) :
    Confined V E' P (caughtAt place step) := by
  intro m hm
  obtain ⟨hs, hr⟩ := h m hm
  unfold Run.caughtAt
  split
  next m' hx => rw [hx] at hs; exact ⟨hs, hplace⟩
  next hx =>
    refine ⟨hs, ?_⟩
    cases he : (step m).1 with
    | ok a => rw [he] at hr; exact hr
    | error stop =>
      rw [he] at hr
      refine hrest stop hr fun hstop => hx (step m).2 ?_
      exact Prod.ext (he.trans (congrArg _ hstop)) rfl

theorem collect {value : Node → Run Value} {ns : List Node}
    (h : ∀ n ∈ ns, Confined V E V (value n)) (done : Array Value) (hd : ∀ v ∈ done, V v) :
    Confined V E (fun vs => ∀ v ∈ vs, V v) (collect value done ns) := by
  induction ns generalizing done with
  | nil => exact pure (by simpa using hd)
  | cons n ns ih =>
    refine (h n (by simp)).bind fun v hv => ih (fun n hn => h n (by simp [hn])) (done.push v) ?_
    intro w hw
    rcases Array.mem_push.1 hw with hw | rfl
    · exact hd w hw
    · exact hv

theorem sequence {statement : Node → Run Completion} {ns : List Node}
    (h : ∀ n ∈ ns, Confined V E (Completion.Holds V) (statement n)) :
    Confined V E (Completion.Holds V) (sequence statement ns) := by
  induction ns with
  | nil => exact pure trivial
  | cons n ns ih =>
    refine (h n (by simp)).bind fun c hc => ?_
    cases c with
    | normal => exact ih fun n hn => h n (by simp [hn])
    | returned v => exact pure hc

theorem loop (hturns : E .unfinished) {condition : Run Value} {body : Run Completion}
    (hc : Confined V E V condition) (hb : Confined V E (Completion.Holds V) body) (turns : Nat) :
    Confined V E (Completion.Holds V) (loop condition body turns) := by
  induction turns with
  | zero => exact throw hturns
  | succ turns ih =>
    refine hc.bind fun v _ => ite (fun _ => hb.bind fun c hc => ?_) fun _ => pure trivial
    cases c with
    | normal => exact ih
    | returned v => exact pure hc

end Confined

end Run

end Lox
