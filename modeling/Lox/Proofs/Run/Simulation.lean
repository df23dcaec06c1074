import Lox.Proofs.Run.Likeness
import Lox.Proofs.Run.Calls
import Lox.Proofs.Run.Scopes

/-!
Two runs side by side. What is related in the two, environments and stores, depends on a world that grows
while they run. Main statement: if looking names up, binding them and opening scopes respect the
relations, then like trees run from related machines end alike, on related machines and in a later
world.
-/

set_option autoImplicit false

namespace Lox

variable {T : Token → Token → Prop} {E F : Environment → Environment → Prop}

inductive Malformed.Like (T : Token → Token → Prop) : Malformed → Malformed → Prop where
  | noStatement {n n' : Node} (h : n.Like T n') : Like T (.noStatement n) (.noStatement n')
  | noExpression {n n' : Node} (h : n.Like T n') : Like T (.noExpression n) (.noExpression n')
  | noToken : Like T .noToken .noToken
  | noPlace (f : Fault) : Like T (.noPlace f) (.noPlace f)
  | noBlock : Like T .noBlock .noBlock
  | noName : Like T .noName .noName

/-- The same kind of stop; a fault is the same one, at tokens that are related. -/
inductive Stop.Like (T : Token → Token → Prop) : Stop → Stop → Prop where
  | failed {t t' : Token} (h : T t t') (f : Fault) :
      Like T (.failed ⟨t.line, f⟩) (.failed ⟨t'.line, f⟩)
  | exhausted : Like T .exhausted .exhausted
  | malformed {k k' : Malformed} (h : k.Like T k') : Like T (.malformed k) (.malformed k')
  | unfinished : Like T .unfinished .unfinished

inductive Completion.Like (T : Token → Token → Prop) (E : Environment → Environment → Prop) :
    Completion → Completion → Prop where
  | normal : Like T E .normal .normal
  | returned {v v' : Value} (h : v.Like T E v') : Like T E (.returned v) (.returned v')

theorem Closure.Like.mono {c c' : Closure} (hE : ∀ {e e'}, E e e' → F e e') (h : c.Like T E c') :
    c.Like T F c' := ⟨h.name, h.params, h.body, hE h.environment⟩

theorem Value.Like.mono {v v' : Value} (hE : ∀ {e e'}, E e e' → F e e') (h : v.Like T E v') :
    v.Like T F v' := by
  cases h with
  | same h => exact .same h
  | function h => exact .function (h.mono hE)

theorem Value.likes_mono {vs vs' : List Value} (hE : ∀ {e e'}, E e e' → F e e')
    (h : List.Forall₂ (Value.Like T E) vs vs') : List.Forall₂ (Value.Like T F) vs vs' :=
  h.imp fun _ _ => .mono hE

inductive Task.Like (T : Token → Token → Prop) (E : Environment → Environment → Prop) :
    Task → Task → Prop where
  | evaluate {n n' : Node} (h : n.Like T n') : Like T E (.evaluate n) (.evaluate n')
  | evaluateAll {ns ns' : List Node} (hs : List.Forall₂ (Node.Like T) ns ns') :
      Like T E (.evaluateAll ns) (.evaluateAll ns')
  | apply {f f' : Value} {vs vs' : List Value} {paren paren' : Node} (hf : f.Like T E f')
      (hvs : List.Forall₂ (Value.Like T E) vs vs') (hp : paren.Like T paren') :
      Like T E (.apply f vs paren) (.apply f' vs' paren')
  | invoke {c c' : Closure} {vs vs' : List Value} (hc : c.Like T E c')
      (hvs : List.Forall₂ (Value.Like T E) vs vs') : Like T E (.invoke c vs) (.invoke c' vs')
  | executeAll {ns ns' : List Node} (hs : List.Forall₂ (Node.Like T) ns ns') :
      Like T E (.executeAll ns) (.executeAll ns')
  | execute {n n' : Node} (h : n.Like T n') : Like T E (.execute n) (.execute n')

/-- How two steps end: both with results that are related, or both with stops that are alike. -/
inductive Ends {α β : Type} (T : Token → Token → Prop) (P : α → β → Prop) :
    Except Stop α → Except Stop β → Prop where
  | ok {a : α} {b : β} (h : P a b) : Ends T P (.ok a) (.ok b)
  | error {stop stop' : Stop} (h : stop.Like T stop') : Ends T P (.error stop) (.error stop')

/-- Relations between the tokens, environments, stores and outputs of two runs that the steps of a run
respect. Only to open a scope the world may have to grow. -/
structure Simulation where
  World : Type
  grows : World → World → Prop
  tokens : Token → Token → Prop
  environments : World → Environment → Environment → Prop
  stores : World → Store → Store → Prop
  outputs : String → String → Prop
  refl : ∀ w, grows w w
  trans : ∀ {u v w}, grows u v → grows v w → grows u w
  sameText : ∀ {t t'}, tokens t t' → t.SameText t'
  mono : ∀ {u v e e'}, grows u v → environments u e e' → environments v e e'
  printed : ∀ {o o'} (line : String), outputs o o' →
    outputs (o ++ line ++ "\n") (o' ++ line ++ "\n")
  get : ∀ {w st st' e e'} (n : Name), stores w st st' → environments w e e' →
    Option.Rel (Value.Like tokens (environments w)) (e.get? st n) (e'.get? st' n)
  define : ∀ {w st st' e e' v v'} (n : Name), stores w st st' → environments w e e' →
    Value.Like tokens (environments w) v v' → stores w (e.define st n v) (e'.define st' n v')
  assign : ∀ {w st st' e e' v v'} (n : Name), stores w st st' → environments w e e' →
    Value.Like tokens (environments w) v v' →
    Option.Rel (stores w) (e.assign? st n v) (e'.assign? st' n v')
  enclose : ∀ {w st st' e e'}, stores w st st' → environments w e e' →
    ∃ v, grows w v ∧ stores v st.addScope st'.addScope ∧
      environments v (e.push st.fresh) (e'.push st'.fresh)

namespace Simulation

variable (S : Simulation)

abbrev Nodes : Node → Node → Prop := Node.Like S.tokens

abbrev Values (w : S.World) : Value → Value → Prop := Value.Like S.tokens (S.environments w)

abbrev Completions (w : S.World) : Completion → Completion → Prop :=
  Completion.Like S.tokens (S.environments w)

/-- Machines that are related, whatever they noted down. -/
structure Machines (w : S.World) (m m' : Machine) : Prop where
  store : S.stores w m.store m'.store
  environment : S.environments w m.environment m'.environment
  output : S.outputs m.output m'.output
  clock : m'.clock = m.clock

end Simulation

namespace Run

variable {α β γ δ : Type} {S : Simulation} {w : S.World}

theorem faultAt_like {place place' : Node} (h : S.Nodes place place') (f : Fault) :
    (faultAt f place).Like S.tokens (faultAt f place') := by
  cases h with
  | token h => exact .failed h f
  | _ => exact .malformed (.noPlace f)

/-- From machines that are related in a later world, two steps end alike and leave related machines. -/
def Simulates (S : Simulation) (w : S.World) (P : S.World → α → β → Prop) (x : Run α)
    (y : Run β) : Prop :=
  ∀ v m m', S.grows w v → S.Machines v m m' →
    ∃ u, S.grows v u ∧ S.Machines u (x m).2 (y m').2 ∧ Ends S.tokens (P u) (x m).1 (y m').1

namespace Simulates

variable {P : S.World → α → β → Prop} {Q : S.World → γ → δ → Prop}

theorem pure {a : α} {b : β} (h : ∀ {v}, S.grows w v → P v a b) :
    Simulates S w P (pure a : Run α) (pure b) :=
  fun _ _ _ hv hm => ⟨_, S.refl _, hm, .ok (h hv)⟩

theorem throw {stop stop' : Stop} (h : stop.Like S.tokens stop') :
    Simulates S w P (throw stop : Run α) (throw stop') :=
  fun _ _ _ _ hm => ⟨_, S.refl _, hm, .error h⟩

theorem bind {x : Run α} {y : Run β} {f : α → Run γ} {g : β → Run δ} (h : Simulates S w P x y)
    (hf : ∀ {v a b}, S.grows w v → P v a b → Simulates S v Q (f a) (g b)) :
    Simulates S w Q (x >>= f) (y >>= g) := by
  intro v m m' hv hm
  obtain ⟨u, hu, hn, he⟩ := h v m m' hv hm
  rw [bind_apply, bind_apply]
  cases hx : x m with
  | mk r n =>
    cases hy : y m' with
    | mk r' n' =>
      rw [hx, hy] at hn he
      cases he with
      | error h => exact ⟨u, hu, hn, .error h⟩
      | ok h =>
        obtain ⟨z, hz, hend⟩ := hf (S.trans hv hu) h u n n' (S.refl u) hn
        exact ⟨z, S.trans hu hz, hend⟩

theorem map {f : α → γ} {g : β → δ} {x : Run α} {y : Run β} (h : Simulates S w P x y)
    (hf : ∀ {v a b}, P v a b → Q v (f a) (g b)) (hQ : ∀ {u v c d}, S.grows u v → Q u c d → Q v c d) :
    Simulates S w Q (f <$> x) (g <$> y) := by
  rw [map_eq_pure_bind, map_eq_pure_bind]
  exact h.bind fun _ hab => pure fun hv => hQ hv (hf hab)

theorem ite {c : Prop} [Decidable c] {x x' : Run α} {y y' : Run β} (hx : Simulates S w P x y)
    (hy : Simulates S w P x' y') : Simulates S w P (if c then x else x') (if c then y else y') := by
  split
  · exact hx
  · exact hy

theorem note (s : Settings) (level : Nat) (line line' : String) :
    Simulates S w (fun _ _ _ => True) (note s level line) (note s level line') := by
  intro v m m' _ hm
  refine ⟨v, S.refl v, ?_⟩
  unfold Run.note
  split <;> exact ⟨⟨hm.store, hm.environment, hm.output, hm.clock⟩, .ok trivial⟩

theorem print {line line' : String} (h : line' = line) :
    Simulates S w (fun _ _ _ => True) (print line) (print line') := by
  intro v m m' _ hm
  subst h
  exact ⟨v, S.refl v, ⟨hm.store, hm.environment, S.printed line' hm.output, hm.clock⟩, .ok trivial⟩

theorem fail {t t' : Token} (h : S.tokens t t') (f : Fault) :
    Simulates S w P (fail t f : Run α) (fail t' f) :=
  throw (.failed h f)

theorem failAt {place place' : Node} (h : S.Nodes place place') (f : Fault) :
    Simulates S w P (failAt place f : Run α) (failAt place' f) :=
  throw (faultAt_like h f)

theorem token {n n' : Node} (h : S.Nodes n n') :
    Simulates S w (fun _ => S.tokens) (token n) (token n') := by
  cases h with
  | token h => exact pure fun _ => h
  | _ => exact throw (.malformed .noToken)

theorem name {t t' : Token} (h : S.tokens t t') :
    Simulates S w (fun _ => Eq) (name t) (name t') := by
  unfold Run.name
  rw [(S.sameText h).name?_eq]
  split
  · exact pure fun _ => rfl
  · exact throw (.malformed .noName)

/-- What is done with the machine is alike for machines that are related. -/
theorem get {f : Machine → Run α} {g : Machine → Run β}
    (h : ∀ {v m m'}, S.grows w v → S.Machines v m m' → Simulates S v P (f m) (g m')) :
    Simulates S w P (MonadState.get >>= f) (MonadState.get >>= g) :=
  fun v m m' hv hm => h hv hm v m m' (S.refl v) hm

theorem lookup {t t' : Token} (h : S.tokens t t') :
    Simulates S w S.Values (lookup t) (lookup t') := by
  refine (name h).bind fun {v n n'} _ hn => ?_
  obtain rfl : n = n' := hn
  refine get fun {u m m'} _ hm => ?_
  have hget := S.get n hm.store hm.environment
  have hlexeme := (S.sameText h).lexeme
  cases hx : m.environment.get? m.store n with
  | none =>
    rw [hx] at hget
    cases hy : m'.environment.get? m'.store n with
    | none => rw [hlexeme]; exact fail h _
    | some v => rw [hy] at hget; cases hget
  | some v =>
    rw [hx] at hget
    cases hy : m'.environment.get? m'.store n with
    | none => rw [hy] at hget; cases hget
    | some v' =>
      rw [hy] at hget
      cases hget with
      | some hv => exact pure fun hu => hv.mono (S.mono hu)

theorem define {t t' : Token} {v v' : Value} (h : S.tokens t t') (hv : S.Values w v v') :
    Simulates S w (fun _ _ _ => True) (define t v) (define t' v') := by
  refine (name h).bind fun {z n n'} hz hn u m m' hu hm => ?_
  obtain rfl : n = n' := hn
  have hstore := S.define n hm.store hm.environment (hv.mono (S.mono (S.trans hz hu)))
  exact ⟨u, S.refl u, ⟨hstore, hm.environment, hm.output, hm.clock⟩, .ok trivial⟩

theorem assign {t t' : Token} {v v' : Value} (h : S.tokens t t') (hv : S.Values w v v') :
    Simulates S w (fun _ _ _ => True) (assign t v) (assign t' v') := by
  refine (name h).bind fun {z n n'} hz hn u m m' hu hm => ?_
  obtain rfl : n = n' := hn
  have hstore := S.assign n hm.store hm.environment (hv.mono (S.mono (S.trans hz hu)))
  have hlexeme := (S.sameText h).lexeme
  simp only [bind_apply, get_apply]
  unfold Environment.assign? at hstore
  cases hx : m.environment.find? m.store n with
  | none =>
    rw [hx] at hstore
    cases hy : m'.environment.find? m'.store n with
    | none => rw [hlexeme]; exact ⟨u, S.refl u, hm, .error (.failed h _)⟩
    | some id => rw [hy] at hstore; cases hstore
  | some id =>
    rw [hx] at hstore
    cases hy : m'.environment.find? m'.store n with
    | none => rw [hy] at hstore; cases hstore
    | some id' =>
      rw [hy] at hstore
      cases hstore with
      | some hs =>
        exact ⟨u, S.refl u, ⟨hs, hm.environment, hm.output, hm.clock⟩, .ok trivial⟩

theorem enclose {e e' : Environment} (h : S.environments w e e') :
    Simulates S w S.environments (enclose e) (enclose e') := by
  intro v m m' hv hm
  obtain ⟨u, hu, hstore, hinside⟩ := S.enclose hm.store (S.mono hv h)
  exact ⟨u, hu, ⟨hstore, S.mono hu hm.environment, hm.output, hm.clock⟩, .ok hinside⟩

theorem readClock : Simulates S w S.Values readClock readClock := by
  intro v m m' _ hm
  unfold Run.readClock
  rw [hm.clock]
  exact ⟨v, S.refl v, ⟨hm.store, hm.environment, hm.output, rfl⟩, .ok (.same rfl)⟩

/-- The result of an operator is no function. -/
theorem operated {t t' : Token} (h : S.tokens t t') {r r' : Except Fault Value} (hr : r' = r)
    (hc : ∀ v, r = .ok v → v.closure? = none) :
    Simulates S w S.Values (operated t r) (operated t' r') := by
  subst hr
  cases r' with
  | ok v => exact pure fun _ => .same (hc v rfl)
  | error f => exact fail h f

theorem blockOf {n n' : Node} (h : S.Nodes n n') :
    Simulates S w (fun _ => List.Forall₂ S.Nodes) (blockOf n) (blockOf n') := by
  cases h with
  | block hs => exact pure fun _ => hs
  | _ => exact throw (.malformed .noBlock)

theorem bindParams {params params' : List Node} {vs vs' : List Value}
    (hp : List.Forall₂ S.Nodes params params') (hv : List.Forall₂ (S.Values w) vs vs') :
    Simulates S w (fun _ _ _ => True) (bindParams params vs) (bindParams params' vs') := by
  induction hp generalizing w vs vs' with
  | nil => cases hv <;> exact pure fun _ => trivial
  | cons hparam _ ih =>
    cases hv with
    | nil => exact pure fun _ => trivial
    | cons hv hvs =>
      refine (token hparam).bind fun {z t t'} hz ht => ?_
      refine (define ht (hv.mono (S.mono hz))).bind fun {u _ _} hu _ => ?_
      exact ih (Value.likes_mono (S.mono (S.trans hz hu)) hvs)

theorem inEnvironment {e e' : Environment} (he : S.environments w e e') {x : Run α} {y : Run β}
    (h : Simulates S w P x y) : Simulates S w P (inEnvironment e x) (inEnvironment e' y) := by
  intro v m m' hv hm
  obtain ⟨u, hu, hn, hend⟩ := h v { m with environment := e } { m' with environment := e' } hv
    ⟨hm.store, S.mono hv he, hm.output, hm.clock⟩
  exact ⟨u, hu, ⟨hn.store, S.mono hu hm.environment, hn.output, hn.clock⟩, hend⟩

/-- Steps in a new scope. They restore the scope stack, so that the old environment is back in the end. -/
theorem inScope {x : Run α} {y : Run β} (hx : Keeps ScopesKept x) (hy : Keeps ScopesKept y)
    (h : Simulates S w P x y) : Simulates S w P (inScope x) (inScope y) := by
  intro v m m' hv hm
  obtain ⟨z, hz, hstore, hinside⟩ := S.enclose hm.store hm.environment
  obtain ⟨u, hu, hn, hend⟩ := h z m.pushScope m'.pushScope (S.trans hv hz)
    ⟨hstore, hinside, hm.output, hm.clock⟩
  have hpop : (x m.pushScope).2.popScope.environment = m.environment :=
    (hx m.pushScope).popScope.environment
  have hpop' : (y m'.pushScope).2.popScope.environment = m'.environment :=
    (hy m'.pushScope).popScope.environment
  have henv : S.environments u (x m.pushScope).2.popScope.environment
      (y m'.pushScope).2.popScope.environment := by
    rw [hpop, hpop']
    exact S.mono (S.trans hz hu) hm.environment
  exact ⟨u, S.trans hz hu, ⟨hn.store, henv, hn.output, hn.clock⟩, hend⟩

theorem caughtAt {place place' : Node} (hp : S.Nodes place place') {x : Run α} {y : Run β}
    (h : Simulates S w P x y) : Simulates S w P (caughtAt place x) (caughtAt place' y) := by
  intro v m m' hv hm
  obtain ⟨u, hu, hn, hend⟩ := h v m m' hv hm
  refine ⟨u, hu, ?_⟩
  unfold Run.caughtAt
  cases hx : x m with
  | mk r n =>
    cases hy : y m' with
    | mk r' n' =>
      rw [hx, hy] at hn hend
      cases hend with
      | ok h => exact ⟨hn, .ok h⟩
      | error h =>
        cases h with
        | exhausted => exact ⟨hn, .error (faultAt_like hp _)⟩
        | failed h f => exact ⟨hn, .error (.failed h f)⟩
        | malformed h => exact ⟨hn, .error (.malformed h)⟩
        | unfinished => exact ⟨hn, .error .unfinished⟩

theorem collect {value : Node → Run Value}
    (h : ∀ {v n n'}, S.grows w v → S.Nodes n n' → Simulates S v S.Values (value n) (value n'))
    {done done' : Array Value} (hd : List.Forall₂ (S.Values w) done.toList done'.toList)
    {ns ns' : List Node} (hs : List.Forall₂ S.Nodes ns ns') :
    Simulates S w (fun v => List.Forall₂ (S.Values v)) (collect value done ns)
      (collect value done' ns') := by
  induction hs generalizing w done done' with
  | nil => exact pure fun hv => Value.likes_mono (S.mono hv) hd
  | cons hn _ ih =>
    refine (h (S.refl w) hn).bind fun {v a b} hv hab => ?_
    refine ih (fun hu => h (S.trans hv hu)) ?_
    rw [Array.toList_push, Array.toList_push]
    exact List.rel_append (Value.likes_mono (S.mono hv) hd) (.cons hab .nil)

theorem sequence {statement : Node → Run Completion} {ns ns' : List Node}
    (h : ∀ {v n n'}, S.grows w v → S.Nodes n n' →
      Simulates S v S.Completions (statement n) (statement n'))
    (hs : List.Forall₂ S.Nodes ns ns') :
    Simulates S w S.Completions (sequence statement ns) (sequence statement ns') := by
  induction hs generalizing w with
  | nil => exact pure fun _ => .normal
  | cons hn _ ih =>
    refine (h (S.refl w) hn).bind fun {v c c'} hv hc => ?_
    cases hc with
    | normal => exact ih fun hu => h (S.trans hv hu)
    | returned hr => exact pure fun hu => .returned (hr.mono (S.mono hu))

theorem loop {condition condition' : Run Value} {body body' : Run Completion}
    (hc : ∀ {v}, S.grows w v → Simulates S v S.Values condition condition')
    (hb : ∀ {v}, S.grows w v → Simulates S v S.Completions body body') (turns : Nat) :
    Simulates S w S.Completions (loop condition body turns) (loop condition' body' turns) := by
  induction turns generalizing w with
  | zero => exact throw .unfinished
  | succ turns ih =>
    refine (hc (S.refl w)).bind fun {v a b} hv hab => ?_
    rw [hab.isTruthy_eq]
    refine ite ((hb hv).bind fun {u c c'} hu hcc => ?_) (pure fun _ => .normal)
    cases hcc with
    | normal =>
      have hvu := S.trans hv hu
      exact ih (fun hz => hc (S.trans hvu hz)) fun hz => hb (S.trans hvu hz)
    | returned hr => exact pure fun hz => .returned (hr.mono (S.mono hz))

end Simulates

/-- All six functions of the evaluator, given so many frames, simulate themselves on like arguments. -/
structure AllSimulate (S : Simulation) (s : Settings) (frames : Nat) : Prop where
  evaluate : ∀ {w n n'}, S.Nodes n n' →
    Simulates S w S.Values (evaluate s frames n) (evaluate s frames n')
  evaluateAll : ∀ {w ns ns'}, List.Forall₂ S.Nodes ns ns' →
    Simulates S w (fun v => List.Forall₂ (S.Values v)) (evaluateAll s frames ns)
      (evaluateAll s frames ns')
  apply : ∀ {w f f' vs vs' paren paren'}, S.Values w f f' → List.Forall₂ (S.Values w) vs vs' →
    S.Nodes paren paren' →
    Simulates S w S.Values (apply s frames f vs paren) (apply s frames f' vs' paren')
  invoke : ∀ {w closure closure' vs vs'}, closure.Like S.tokens (S.environments w) closure' →
    List.Forall₂ (S.Values w) vs vs' →
    Simulates S w S.Values (invoke s frames closure vs) (invoke s frames closure' vs')
  executeAll : ∀ {w ns ns'}, List.Forall₂ S.Nodes ns ns' →
    Simulates S w S.Completions (executeAll s frames ns) (executeAll s frames ns')
  execute : ∀ {w n n'}, S.Nodes n n' →
    Simulates S w S.Completions (execute s frames n) (execute s frames n')

namespace AllSimulate

theorem zero (S : Simulation) (s : Settings) : AllSimulate S s 0 where
  evaluate _ := .throw .exhausted
  evaluateAll _ := .throw .exhausted
  apply _ _ _ := .throw .exhausted
  invoke _ _ := .throw .exhausted
  executeAll _ := .throw .exhausted
  execute _ := .throw .exhausted

variable {s : Settings} {frames : Nat}

theorem valueOf? (ih : AllSimulate S s frames) {n n' : Node} (h : S.Nodes n n') :
    Simulates S w S.Values (valueOf? s frames n) (valueOf? s frames n') := by
  cases h with
  | missing => exact .pure fun _ => .same rfl
  | _ => exact ih.evaluate (by constructor <;> assumption)

theorem branchOf? (ih : AllSimulate S s frames) {n n' : Node} (h : S.Nodes n n') :
    Simulates S w S.Completions (branchOf? s frames n) (branchOf? s frames n') := by
  cases h with
  | missing => exact .pure fun _ => .normal
  | _ => exact ih.execute (by constructor <;> assumption)

theorem evaluate_succ (ih : AllSimulate S s frames) {n n' : Node} (h : S.Nodes n n') :
    Simulates S w S.Values (Run.evaluate s (frames + 1) n) (Run.evaluate s (frames + 1) n') := by
  cases h with
  | literal ht =>
    refine .bind (.token ht) fun {v t t'} _ h => ?_
    exact .operated h (Value.literal_eq (S.sameText h)) fun _ => Value.closure?_literal
  | grouping h => exact ih.evaluate h
  | «variable» hn => exact .bind (.token hn) fun _ h => .lookup h
  | assign hn h =>
    refine .bind (ih.evaluate h) fun {v a b} hv hab => .bind (.token hn) fun {u _ _} hu ht => ?_
    refine .bind (.assign ht (hab.mono (S.mono hu))) fun {z _ _} hz _ => ?_
    exact .pure fun hy => hab.mono (S.mono (S.trans hu (S.trans hz hy)))
  | unary ho h =>
    refine .bind (ih.evaluate h) fun {v a b} _ hab => .bind (.token ho) fun {u _ _} hu ht => ?_
    have hsame := S.sameText ht
    exact .operated ht (hab.unary_eq hsame) fun _ => Value.closure?_unary
  | logical hl ho hr =>
    refine .bind (ih.evaluate hl) fun {v a b} _ hab => .bind (.token ho) fun {u t t'} hu ht => ?_
    have hor : isOr t' = isOr t := by rw [isOr, isOr, (S.sameText ht).kind]
    rw [hab.isTruthy_eq, hor]
    exact .ite (.pure fun hz => hab.mono (S.mono (S.trans hu hz))) (ih.evaluate hr)
  | binary hl ho hr =>
    refine .bind (ih.evaluate hl) fun {v a a'} _ ha => ?_
    refine .bind (ih.evaluate hr) fun {u b b'} hu hb => .bind (.token ho) fun {z t t'} _ ht => ?_
    have heq := (ha.mono (S.mono hu)).binary_eq (S.sameText ht) hb
    exact .operated ht heq fun _ => Value.closure?_binary
  | call h hp hs =>
    refine .bind (ih.evaluate h) fun {v f f'} _ hf => ?_
    refine .bind (ih.evaluateAll hs) fun {u vs vs'} hu hvs => ?_
    exact ih.apply (hf.mono (S.mono hu)) hvs hp
  | _ => exact .throw (.malformed (.noExpression (by constructor <;> assumption)))

theorem apply_succ (ih : AllSimulate S s frames) {f f' : Value} {vs vs' : List Value}
    {paren paren' : Node} (hf : S.Values w f f') (hvs : List.Forall₂ (S.Values w) vs vs')
    (hp : S.Nodes paren paren') :
    Simulates S w S.Values (Run.apply s (frames + 1) f vs paren)
      (Run.apply s (frames + 1) f' vs' paren') := by
  have hlength : vs'.length = vs.length := hvs.length_eq.symm
  cases hf with
  | function hc =>
    have hparams := hc.params.length_eq
    rw [apply_function, apply_function, hlength, ← hparams]
    refine .ite (.failAt hp _) (.bind (.note s 3 _ _) fun {v _ _} hv _ => .caughtAt hp ?_)
    exact ih.invoke (hc.mono (S.mono hv)) (Value.likes_mono (S.mono hv) hvs)
  | same h =>
    cases f with
    | function c => cases h
    | builtin name =>
      rw [apply_builtin, apply_builtin, hlength]
      exact .ite (.failAt hp _) (.bind (.note s 3 _ _) fun _ _ => .readClock)
    | _ => exact .failAt hp _

theorem invoke_succ_succ (ih : AllSimulate S s frames) {c c' : Closure} {vs vs' : List Value}
    (hc : c.Like S.tokens (S.environments w) c') (hvs : List.Forall₂ (S.Values w) vs vs') :
    Simulates S w S.Values (Run.invoke s (frames + 2) c vs) (Run.invoke s (frames + 2) c' vs') := by
  refine .bind (.enclose hc.environment) fun {v inside inside'} hv hinside => ?_
  refine .bind (.inEnvironment hinside
    (.bindParams hc.params (Value.likes_mono (S.mono hv) hvs))) fun {u _ _} hu _ => ?_
  refine .bind (.blockOf hc.body) fun {z ns ns'} hz hs => ?_
  refine .bind (.inEnvironment (S.mono (S.trans hu hz) hinside) (ih.executeAll hs))
    fun {y c c'} _ hc => ?_
  cases hc with
  | normal => exact .pure fun _ => .same rfl
  | returned h => exact .pure fun hx => h.mono (S.mono hx)

theorem execute_succ (ih : AllSimulate S s frames) {n n' : Node} (h : S.Nodes n n') :
    Simulates S w S.Completions (Run.execute s (frames + 1) n) (Run.execute s (frames + 1) n') := by
  cases h with
  | expression h => exact .bind (ih.evaluate h) fun _ _ => .pure fun _ => .normal
  | print h =>
    refine .bind (ih.evaluate h) fun {v a b} _ hab => ?_
    exact .bind (.print (hab.display_eq S.sameText)) fun _ _ => .pure fun _ => .normal
  | var hn h =>
    rw [execute_var, execute_var]
    refine .bind (ih.valueOf? h) fun {v a b} _ hab => .bind (.token hn) fun {u _ _} hu ht => ?_
    refine .bind (.define ht (hab.mono (S.mono hu))) fun _ _ => ?_
    exact .bind (.note s 2 _ _) fun _ _ => .pure fun _ => .normal
  | block hs =>
    have hkeeps := (allKeep law_scopesKept s frames).executeAll
    exact .inScope (hkeeps _) (hkeeps _) (ih.executeAll hs)
  | ifElse hc h he =>
    rw [execute_ifElse, execute_ifElse]
    refine .bind (ih.evaluate hc) fun {v a b} _ hab => .bind (.note s 3 _ _) fun _ _ => ?_
    rw [hab.isTruthy_eq]
    exact .ite (ih.execute h) (ih.branchOf? he)
  | whileDo hc h => exact .loop (fun _ => ih.evaluate hc) (fun _ => ih.execute h) s.turns
  | function hn hp hb =>
    refine .get fun {v m m'} _ hm => .bind (.token hn) fun {u t t'} hu ht => ?_
    have hclosure : S.Values u (.function ⟨t, _, _, m.environment.capture⟩)
        (.function ⟨t', _, _, m'.environment.capture⟩) :=
      .function ⟨ht, hp, hb, S.mono hu hm.environment⟩
    refine .bind (.define ht hclosure) fun _ _ => ?_
    exact .bind (.note s 2 _ _) fun _ _ => .pure fun _ => .normal
  | ret hk h =>
    rw [execute_ret, execute_ret]
    exact .bind (ih.valueOf? h) fun _ hab => .pure fun hu => .returned (hab.mono (S.mono hu))
  | _ => exact .throw (.malformed (.noStatement (by constructor <;> assumption)))

/-- Invoking a function takes one more frame than the other steps, and is looked at apart. -/
theorem next {S : Simulation} (now : AllSimulate S s frames)
    (hinvoke : ∀ {w closure closure' vs vs'}, closure.Like S.tokens (S.environments w) closure' →
      List.Forall₂ (S.Values w) vs vs' →
      Simulates S w S.Values (Run.invoke s (frames + 1) closure vs)
        (Run.invoke s (frames + 1) closure' vs')) :
    AllSimulate S s (frames + 1) where
  evaluate := evaluate_succ now
  evaluateAll := .collect (fun _ => now.evaluate) .nil
  apply := apply_succ now
  invoke := hinvoke
  executeAll := .sequence fun _ => now.execute
  execute := execute_succ now

/-- A call of the evaluator takes one frame or, to invoke a function, two; hence the two bundles. -/
theorem both (S : Simulation) (s : Settings) (frames : Nat) :
    AllSimulate S s frames ∧ AllSimulate S s (frames + 1) := by
  induction frames with
  | zero => exact ⟨zero S s, (zero S s).next fun _ _ => .throw .exhausted⟩
  | succ frames ih =>
    obtain ⟨before, now⟩ := ih
    exact ⟨now, now.next (invoke_succ_succ before)⟩

end AllSimulate

/-- Like trees run alike on related machines. -/
theorem allSimulate (S : Simulation) (s : Settings) (frames : Nat) : AllSimulate S s frames :=
  (AllSimulate.both S s frames).1

/-- What is asked about like trees and values gives like values. -/
theorem simulates_run (s : Settings) (frames : Nat) {task task' : Task}
    (h : task.Like S.tokens (S.environments w) task') :
    Simulates S w (fun v => List.Forall₂ (S.Values v)) (task.run s frames)
      (task'.run s frames) := by
  have hall := allSimulate S s frames
  have hlater : ∀ {u v vs vs'}, S.grows u v → List.Forall₂ (S.Values u) vs vs' →
      List.Forall₂ (S.Values v) vs vs' := fun hv => Value.likes_mono (S.mono hv)
  have hone : ∀ {v a b}, S.Values v a b → List.Forall₂ (S.Values v) [a] [b] :=
    fun h => .cons h .nil
  have hvalues : ∀ {v c c'}, S.Completions v c c' → List.Forall₂ (S.Values v) c.values c'.values := by
    intro v c c' h
    cases h with
    | normal => exact .nil
    | returned h => exact .cons h .nil
  cases h with
  | evaluate h => exact (hall.evaluate h).map hone hlater
  | evaluateAll hs => exact hall.evaluateAll hs
  | apply hf hvs hp => exact (hall.apply hf hvs hp).map hone hlater
  | invoke hc hvs => exact (hall.invoke hc hvs).map hone hlater
  | executeAll hs => exact (hall.executeAll hs).map hvalues hlater
  | execute h => exact (hall.execute h).map hvalues hlater

/-- Exhaustion outside all calls is a fault at a token of the statement, or at none. -/
theorem simulates_topLevel (hend : S.tokens (.endAt 0) (.endAt 0)) (s : Settings) (frames : Nat)
    {n n' : Node} (h : S.Nodes n n') :
    Simulates S w S.Completions (topLevel s frames n) (topLevel s frames n') := by
  refine .caughtAt (.token ?_) ((allSimulate S s frames).execute h)
  have hleading := h.leadingToken
  generalize n.leadingToken = o, n'.leadingToken = o' at hleading
  cases hleading with
  | none => exact hend
  | some ht => exact ht

theorem simulates_interpret (hend : S.tokens (.endAt 0) (.endAt 0)) (s : Settings) (frames : Nat)
    {p p' : Program} (h : List.Forall₂ S.Nodes p p') :
    Simulates S w (fun _ _ _ => True) (interpret s frames p) (interpret s frames p') := by
  refine .bind (.note s 1 _ _) fun _ _ => ?_
  exact .bind (.sequence (fun _ => simulates_topLevel hend s frames) h) fun _ _ => .note s 1 _ _

end Run

end Lox
