import Lox.Proofs.Run.Bindings
import Lox.Proofs.Run.Reachability

/-!
Empty scopes. Main statement: an expression is evaluated in an empty scope as it is in the environment
around it. What it calls runs elsewhere, and it binds nothing, so that the scope stays empty.
-/

set_option autoImplicit false

namespace Lox

/-- A scope that is there and binds nothing. -/
structure Store.Vacant (st : Store) (id : ScopeId) : Prop where
  lt : id < st.fresh
  binds : ∀ name, (st.scope id).binds name = false

namespace Store.Vacant

variable {st : Store} {id : ScopeId}

theorem get? (h : st.Vacant id) (name : Name) : (st.scope id).get? name = none :=
  Option.not_isSome_iff_eq_none.1 (Bool.eq_false_iff.1 (h.binds name))

/-- Names are looked up past an empty scope. -/
theorem get?_push (h : st.Vacant id) (e : Environment) (name : Name) :
    (e.push id).get? st name = e.get? st name := by
  unfold Environment.get?
  rw [Environment.scopes_push, List.findSome?_cons, h.get? name]

theorem find?_push (h : st.Vacant id) (e : Environment) (name : Name) :
    (e.push id).find? st name = e.find? st name := by
  unfold Environment.find?
  rw [Environment.scopes_push, List.find?_cons, h.binds name]

theorem addScope (h : st.Vacant id) : st.addScope.Vacant id := by
  refine ⟨by simpa using Nat.lt_succ_of_lt h.lt, fun name => ?_⟩
  rw [Store.scope_addScope_eq]
  exact h.binds name

/-- A new scope is empty. -/
theorem fresh (st : Store) : st.addScope.Vacant st.fresh := by
  refine ⟨by simp, fun name => ?_⟩
  rw [Store.scope_addScope_eq, Store.scope_of_fresh_le (Nat.le_refl _)]
  rfl

theorem set (h : st.Vacant id) {other : ScopeId} (hne : id ≠ other) (name : Name) (v : Value) :
    (st.set other name v).Vacant id := by
  refine ⟨by simpa using h.lt, fun n => ?_⟩
  rw [Store.scope_set_of_ne st name v hne]
  exact h.binds n

end Store.Vacant

theorem Machine.Gains.vacant {id : ScopeId} {m m' : Machine} (h : m.Gains id (fun _ => False) m')
    (hm : m.store.Vacant id) : m'.store.Vacant id := by
  refine ⟨Nat.lt_of_lt_of_le hm.lt h.fresh_le, fun name => Bool.eq_false_iff.2 fun hb => ?_⟩
  rcases h.gained name hb with hb | ⟨-, hnone⟩
  · exact Bool.eq_false_iff.1 (hm.binds name) hb
  · exact hnone

namespace Run

variable {α β : Type} {id : ScopeId}

/-- Runs a step in the current environment with a scope more inside. -/
def inside (id : ScopeId) (x : Run α) : Run α := fun m => inEnvironment (m.environment.push id) x m

theorem inside_bind {x : Run α} (hx : Keeps ScopesKept x) (f : α → Run β) :
    inside id (x >>= f) = inside id x >>= fun a => inside id (f a) := by
  funext m
  have hkept : (x { m with environment := m.environment.push id }).2.environment =
      m.environment.push id := (hx { m with environment := m.environment.push id }).environment
  rw [bind_apply]
  unfold inside inEnvironment
  rw [bind_apply]
  cases h : x { m with environment := m.environment.push id } with
  | mk r n =>
    rw [h] at hkept
    cases r with
    | error stop => rfl
    | ok a =>
      have hn : { n with environment := m.environment.push id } = n := by rw [← hkept]
      simp only [hn]

theorem inside_loop {condition : Run Value} {body : Run Completion}
    (hc : Keeps ScopesKept condition) (hb : Keeps ScopesKept body) (turns : Nat) :
    inside id (loop condition body turns) = loop (inside id condition) (inside id body) turns := by
  induction turns with
  | zero => rfl
  | succ turns ih =>
    rw [loop, loop, inside_bind hc]
    refine congrArg _ (funext fun v => ?_)
    split
    · rw [inside_bind hb]
      refine congrArg _ (funext fun c => ?_)
      cases c with
      | normal => exact ih
      | returned v => rfl
    · rfl

/-- A new scope that is left again is the scope of a store with one scope more. -/
theorem inScope_eq_inside {x : Run α} (hx : Keeps ScopesKept x) (m : Machine) :
    inScope x m = inside m.store.fresh x { m with store := m.store.addScope } := by
  have hpop : (x m.pushScope).2.popScope.environment = m.environment :=
    (hx m.pushScope).popScope.environment
  have hleft : (x m.pushScope).2.popScope =
      { (x m.pushScope).2 with environment := m.environment } := by rw [← hpop]; rfl
  exact Prod.ext rfl hleft

/-- A step that an empty scope makes no difference to. -/
structure Overlooks (id : ScopeId) (x : Run α) : Prop where
  scopesKept : Keeps ScopesKept x
  declares : DeclaresNothing id x
  inside_eq : ∀ m, m.store.Vacant id → inside id x m = x m

namespace Overlooks

theorem detached {x : Run α} (h : Detached x) (hk : Keeps ScopesKept x)
    (hd : DeclaresNothing id x) : Overlooks id x := by
  refine ⟨hk, hd, fun m _ => ?_⟩
  have hsame : { (x m).2 with environment := m.environment } = (x m).2 := by
    rw [← (hk m).environment]
  unfold inside inEnvironment
  rw [h m]
  exact Prod.ext rfl hsame

theorem pure (a : α) : Overlooks id (pure a : Run α) :=
  detached (.pure a) (.pure law_scopesKept a) (.pure a)

theorem throw (stop : Stop) : Overlooks id (throw stop : Run α) :=
  detached (.throw stop) (.throw law_scopesKept stop) (.throw stop)

theorem bind {x : Run α} {f : α → Run β} (hx : Overlooks id x) (hf : ∀ a, Overlooks id (f a)) :
    Overlooks id (x >>= f) := by
  refine ⟨.bind law_scopesKept hx.scopesKept fun a => (hf a).scopesKept,
    .bind hx.declares fun a => (hf a).declares, fun m hm => ?_⟩
  have hn := (hx.declares m hm.lt).vacant hm
  rw [inside_bind hx.scopesKept, bind_apply, bind_apply, hx.inside_eq m hm]
  cases h : x m with
  | mk r n =>
    rw [h] at hn
    cases r with
    | error stop => rfl
    | ok a => exact (hf a).inside_eq n hn

theorem ite {c : Prop} [Decidable c] {x y : Run α} (hx : Overlooks id x) (hy : Overlooks id y) :
    Overlooks id (if c then x else y) := by
  split
  · exact hx
  · exact hy

theorem token (n : Node) : Overlooks id (token n) := by
  cases n with
  | token t => exact pure t
  | _ => exact throw _

theorem operated (operator : Token) (r : Except Fault Value) :
    Overlooks id (operated operator r) := by
  cases r with
  | ok v => exact pure v
  | error f => exact throw _

theorem note (s : Settings) (level : Nat) (line : String) : Overlooks id (note s level line) :=
  detached (.note s level line) (.note law_scopesKept s level line) (.note s level line)

theorem print (line : String) : Overlooks id (print line) :=
  detached (fun _ _ => rfl) (.print law_scopesKept line) (Keeps.print (quietLaw_gains id _) line)

theorem lookup (t : Token) : Overlooks id (lookup t) := by
  refine ⟨.lookup law_scopesKept t, Keeps.lookup (quietLaw_gains id _) t, fun m hm => ?_⟩
  unfold inside inEnvironment Run.lookup Run.name
  cases t.name? with
  | none => rfl
  | some n =>
    simp only [bind_apply, pure_apply, get_apply, hm.get?_push]
    cases m.environment.get? m.store n <;> rfl

/-- A value is assigned where its name is bound, past an empty scope. -/
theorem assign (t : Token) (v : Value) : Overlooks id (assign t v) := by
  refine ⟨.assign law_scopesKept t v, .assign t v, fun m hm => ?_⟩
  unfold inside inEnvironment Run.assign Run.name
  cases t.name? with
  | none => rfl
  | some n =>
    simp only [bind_apply, pure_apply, get_apply, hm.find?_push]
    cases m.environment.find? m.store n <;> rfl

/-- What is called runs in the environment of the function. -/
theorem apply (s : Settings) (frames : Nat) (f : Value) (vs : List Value) (paren : Node) :
    Overlooks id (apply s frames f vs paren) :=
  detached (detached_apply s frames f vs paren) ((allKeep law_scopesKept s frames).apply f vs paren)
    ((allDeclare id s frames).apply f vs paren)

theorem collect {value : Node → Run Value} (h : ∀ n, Overlooks id (value n)) (done : Array Value)
    (ns : List Node) : Overlooks id (collect value done ns) := by
  induction ns generalizing done with
  | nil => exact pure _
  | cons n ns ih => exact bind (h n) fun v => ih (done.push v)

end Overlooks

theorem overlooks_evaluate (id : ScopeId) (s : Settings) (frames : Nat) :
    (∀ n, Overlooks id (evaluate s frames n)) ∧ ∀ ns, Overlooks id (evaluateAll s frames ns) := by
  induction frames with
  | zero => exact ⟨fun _ => .throw _, fun _ => .throw _⟩
  | succ frames ih =>
    obtain ⟨ih, ihs⟩ := ih
    refine ⟨fun n => ?_, fun ns => .collect ih #[] ns⟩
    cases n with
    | literal t => exact .bind (.token t) fun t => .operated t _
    | grouping value => exact ih value
    | «variable» name => exact .bind (.token name) fun t => .lookup t
    | assign name value =>
      refine .bind (ih value) fun v => .bind (.token name) fun t => ?_
      exact .bind (.assign t v) fun _ => .pure v
    | unary operator right =>
      exact .bind (ih right) fun v => .bind (.token operator) fun t => .operated t _
    | logical left operator right =>
      refine .bind (ih left) fun v => .bind (.token operator) fun t => ?_
      exact .ite (.pure v) (ih right)
    | binary left operator right =>
      refine .bind (ih left) fun a => .bind (ih right) fun b => ?_
      exact .bind (.token operator) fun t => .operated t _
    | call callee paren arguments =>
      refine .bind (ih callee) fun f => .bind (ihs arguments) fun vs => ?_
      exact .apply s frames f vs paren
    | _ => exact .throw _

theorem overlooks_valueOf? (id : ScopeId) (s : Settings) (frames : Nat) (n : Node) :
    Overlooks id (valueOf? s frames n) := by
  cases n with
  | missing => exact .pure _
  | _ => exact (overlooks_evaluate id s frames).1 _

/-- Nothing can be declared without a name: the run stops. -/
theorem declare_of_nameless {n : Node} (h : ∀ t, n = .token t → t.name? = none) :
    ∃ stop, ∀ (v : Token → Value) (f : Token → Run α), (do
      let t ← token n
      define t (v t)
      f t) = throw stop := by
  cases n with
  | token t =>
    refine ⟨.malformed .noName, fun v f => ?_⟩
    unfold token define name
    rw [pure_bind, h t rfl]
    rfl
  | _ => exact ⟨.malformed .noToken, fun _ _ => rfl⟩

theorem overlooks_var {name initializer : Node} (h : (Node.var name initializer).declared = [])
    (s : Settings) (frames : Nat) : Overlooks id (execute s (frames + 1) (.var name initializer)) := by
  have hname : ∀ t, name = .token t → t.name? = none := by
    rintro t rfl
    exact Option.toList_eq_nil_iff.1 h
  obtain ⟨stop, hstop⟩ := declare_of_nameless hname
  rw [execute_var]
  refine .bind (overlooks_valueOf? id s frames initializer) fun v => ?_
  rw [hstop fun _ => v]
  exact .throw stop

theorem overlooks_function {name body : Node} {params : List Node}
    (h : (Node.function name params body).declared = []) (s : Settings) (frames : Nat) :
    Overlooks id (execute s (frames + 1) (.function name params body)) := by
  have hname : ∀ t, name = .token t → t.name? = none := by
    rintro t rfl
    exact Option.toList_eq_nil_iff.1 h
  obtain ⟨stop, hstop⟩ := declare_of_nameless hname
  have hthrow : execute s (frames + 1) (.function name params body) = throw stop := by
    funext m
    exact congrFun (hstop (fun t => .function ⟨t, params, body, m.environment.capture⟩) _) m
  rw [hthrow]
  exact .throw stop

end Run

end Lox
