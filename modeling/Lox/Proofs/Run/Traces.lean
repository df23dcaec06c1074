import Lox.Proofs.Run.Steps

/-!
Runs that differ in what they note down. Main statement: runs of the same tree from machines that
differ in their traces alone, at any two levels of noting, end in the same way and on machines that
differ in their traces alone. So the level changes nothing of a run but its trace, and the higher
level notes down all that the lower one does.
-/

set_option autoImplicit false

namespace Lox

/-- Machines that agree in everything but their traces, which are related. -/
structure Machine.Alike (T : Array String → Array String → Prop) (m m' : Machine) : Prop where
  store : m'.store = m.store
  environment : m'.environment = m.environment
  output : m'.output = m.output
  clock : m'.clock = m.clock
  trace : T m.trace m'.trace

/-- Settings under which notes keep a relation between traces. -/
structure Settings.Noting (T : Array String → Array String → Prop) (s s' : Settings) : Prop where
  turns : s'.turns = s.turns
  noted : ∀ {level : Nat} (line : String) {a b : Array String}, 0 < level → T a b →
    T (if level ≤ s.level then a.push line else a) (if level ≤ s'.level then b.push line else b)

namespace Run

variable {α β : Type} {T : Array String → Array String → Prop} {s s' : Settings}

/-- From machines that are alike two steps have the same result and leave machines that are alike. -/
def Agree (T : Array String → Array String → Prop) (x y : Run α) : Prop :=
  ∀ m m', m.Alike T m' → (y m').1 = (x m).1 ∧ (x m).2.Alike T (y m').2

namespace Agree

theorem pure (a : α) : Agree T (pure a : Run α) (pure a) := fun _ _ h => ⟨rfl, h⟩

theorem throw (stop : Stop) : Agree T (throw stop : Run α) (throw stop) := fun _ _ h => ⟨rfl, h⟩

theorem bind {x y : Run α} {f g : α → Run β} (h : Agree T x y) (hf : ∀ a, Agree T (f a) (g a)) :
    Agree T (x >>= f) (y >>= g) := by
  intro m m' hm
  obtain ⟨hr, hm⟩ := h m m' hm
  rw [bind_apply, bind_apply]
  cases hx : x m with
  | mk r n =>
    cases hy : y m' with
    | mk r' n' =>
      rw [hx, hy] at hr hm
      obtain rfl : r' = r := hr
      cases r' with
      | ok a => exact hf a n n' hm
      | error stop => exact ⟨rfl, hm⟩

theorem ite {c : Prop} [Decidable c] {x x' y y' : Run α} (hx : Agree T x x') (hy : Agree T y y') :
    Agree T (if c then x else y) (if c then x' else y') := by
  split
  · exact hx
  · exact hy

/-- Nothing is noted down from level 0 on. -/
theorem note (h : s.Noting T s') {level : Nat} (hl : 0 < level) (line : String) :
    Agree T (note s level line) (note s' level line) := by
  intro m m' hm
  have htrace := h.noted line hl hm.trace
  unfold Run.note
  split <;> split <;> simp_all <;> exact ⟨hm.store, hm.environment, hm.output, hm.clock, htrace⟩

theorem print (line : String) : Agree T (print line) (print line) := fun _ _ h =>
  ⟨rfl, h.store, h.environment, congrArg (· ++ line ++ "\n") h.output, h.clock, h.trace⟩

theorem failAt (place : Node) (f : Fault) :
    Agree T (failAt place f : Run α) (failAt place f) :=
  throw (faultAt f place)

theorem token (n : Node) : Agree T (token n) (token n) := by
  cases n with
  | token t => exact pure t
  | _ => exact throw _

theorem name (t : Token) : Agree T (name t) (name t) := by
  unfold Run.name
  split
  · exact pure _
  · exact throw _

/-- What is done with the machine is the same for machines that are alike. -/
theorem get {f g : Machine → Run α} (h : ∀ m m', m.Alike T m' → Agree T (f m) (g m')) :
    Agree T (MonadState.get >>= f) (MonadState.get >>= g) := fun m m' hm => h m m' hm m m' hm

theorem lookup (t : Token) : Agree T (lookup t) (lookup t) := by
  refine bind (name t) fun n => get fun m m' h => ?_
  rw [h.environment, h.store]
  split
  · exact pure _
  · exact throw _

theorem modifyStore (f : Machine → Store) (h : ∀ m m', m.Alike T m' → f m' = f m) :
    Agree T (modify fun m => { m with store := f m } : Run PUnit)
      (modify fun m => { m with store := f m }) := fun m m' hm =>
  ⟨rfl, h m m' hm, hm.environment, hm.output, hm.clock, hm.trace⟩

theorem define (t : Token) (v : Value) : Agree T (define t v) (define t v) :=
  bind (name t) fun n => modifyStore (fun m => m.environment.define m.store n v) fun m m' h => by
    rw [h.environment, h.store]

theorem assign (t : Token) (v : Value) : Agree T (assign t v) (assign t v) := by
  refine bind (name t) fun n => get fun m m' h => ?_
  rw [h.environment, h.store]
  split
  next id _ => exact modifyStore (fun m => m.store.set id n v) fun m m' h => by rw [h.store]
  next => exact throw _

theorem enclose (e : Environment) : Agree T (enclose e) (enclose e) := by
  intro m m' h
  unfold Run.enclose
  rw [h.store]
  exact ⟨rfl, rfl, h.environment, h.output, h.clock, h.trace⟩

theorem readClock : Agree T readClock readClock := by
  intro m m' h
  unfold Run.readClock
  rw [h.clock]
  exact ⟨rfl, h.store, h.environment, h.output, rfl, h.trace⟩

theorem operated (operator : Token) (r : Except Fault Value) :
    Agree T (operated operator r) (operated operator r) := by
  cases r with
  | ok v => exact pure v
  | error f => exact throw _

theorem blockOf (n : Node) : Agree T (blockOf n) (blockOf n) := by
  cases n with
  | block statements => exact pure statements
  | _ => exact throw _

theorem bindParams (params : List Node) (vs : List Value) :
    Agree T (bindParams params vs) (bindParams params vs) := by
  induction params generalizing vs with
  | nil => cases vs <;> exact pure ()
  | cons param params ih =>
    cases vs with
    | nil => exact pure ()
    | cons v vs => exact bind (token param) fun t => bind (define t v) fun _ => ih vs

theorem inScope {x y : Run α} (h : Agree T x y) : Agree T (inScope x) (inScope y) := by
  intro m m' hm
  have hpush : m.pushScope.Alike T m'.pushScope := by
    refine ⟨?_, ?_, hm.output, hm.clock, hm.trace⟩
    · simp [Machine.pushScope, hm.store]
    · simp [Machine.pushScope, hm.store, hm.environment]
  obtain ⟨hr, hp⟩ := h _ _ hpush
  have hpop := congrArg (fun e : Environment => e.pop?.getD e) hp.environment
  exact ⟨hr, hp.store, hpop, hp.output, hp.clock, hp.trace⟩

theorem inEnvironment (e : Environment) {x y : Run α} (h : Agree T x y) :
    Agree T (inEnvironment e x) (inEnvironment e y) := by
  intro m m' hm
  obtain ⟨hr, hp⟩ := h { m with environment := e } { m' with environment := e }
    ⟨hm.store, rfl, hm.output, hm.clock, hm.trace⟩
  exact ⟨hr, hp.store, hm.environment, hp.output, hp.clock, hp.trace⟩

theorem caughtAt (place : Node) {x y : Run α} (h : Agree T x y) :
    Agree T (caughtAt place x) (caughtAt place y) := by
  intro m m' hm
  obtain ⟨hr, hp⟩ := h m m' hm
  unfold Run.caughtAt
  cases hx : x m with
  | mk r n =>
    cases hy : y m' with
    | mk r' n' =>
      rw [hx, hy] at hr hp
      obtain rfl : r' = r := hr
      cases r' with
      | ok a => exact ⟨rfl, hp⟩
      | error stop => cases stop <;> exact ⟨rfl, hp⟩

theorem collect {value value' : Node → Run Value} (h : ∀ n, Agree T (value n) (value' n))
    (done : Array Value) (ns : List Node) :
    Agree T (collect value done ns) (collect value' done ns) := by
  induction ns generalizing done with
  | nil => exact pure _
  | cons n ns ih => exact bind (h n) fun v => ih (done.push v)

theorem sequence {statement statement' : Node → Run Completion}
    (h : ∀ n, Agree T (statement n) (statement' n)) (ns : List Node) :
    Agree T (sequence statement ns) (sequence statement' ns) := by
  induction ns with
  | nil => exact pure _
  | cons n ns ih =>
    refine bind (h n) fun c => ?_
    cases c with
    | normal => exact ih
    | returned v => exact pure _

theorem loop {condition condition' : Run Value} {body body' : Run Completion}
    (hc : Agree T condition condition') (hb : Agree T body body') (turns : Nat) :
    Agree T (loop condition body turns) (loop condition' body' turns) := by
  induction turns with
  | zero => exact throw _
  | succ turns ih =>
    refine bind hc fun v => ite (bind hb fun c => ?_) (pure _)
    cases c with
    | normal => exact ih
    | returned v => exact pure _

end Agree

/-- All six functions of the evaluator agree under two settings, given so many frames. -/
structure AllAgree (T : Array String → Array String → Prop) (s s' : Settings) (frames : Nat) :
    Prop where
  evaluate : ∀ n, Agree T (evaluate s frames n) (evaluate s' frames n)
  evaluateAll : ∀ ns, Agree T (evaluateAll s frames ns) (evaluateAll s' frames ns)
  apply : ∀ f vs paren, Agree T (apply s frames f vs paren) (apply s' frames f vs paren)
  invoke : ∀ closure vs, Agree T (invoke s frames closure vs) (invoke s' frames closure vs)
  executeAll : ∀ ns, Agree T (executeAll s frames ns) (executeAll s' frames ns)
  execute : ∀ n, Agree T (execute s frames n) (execute s' frames n)

namespace AllAgree

theorem zero : AllAgree T s s' 0 where
  evaluate _ := .throw _
  evaluateAll _ := .throw _
  apply _ _ _ := .throw _
  invoke _ _ := .throw _
  executeAll _ := .throw _
  execute _ := .throw _

variable {frames : Nat}

theorem valueOf? (ih : AllAgree T s s' frames) (n : Node) :
    Agree T (valueOf? s frames n) (valueOf? s' frames n) := by
  cases n with
  | missing => exact .pure _
  | _ => exact ih.evaluate _

theorem branchOf? (ih : AllAgree T s s' frames) (n : Node) :
    Agree T (branchOf? s frames n) (branchOf? s' frames n) := by
  cases n with
  | missing => exact .pure _
  | _ => exact ih.execute _

theorem evaluate_succ (ih : AllAgree T s s' frames) (n : Node) :
    Agree T (Run.evaluate s (frames + 1) n) (Run.evaluate s' (frames + 1) n) := by
  cases n with
  | literal t => exact .bind (.token t) fun t => .operated t _
  | grouping value => exact ih.evaluate value
  | «variable» name => exact .bind (.token name) fun t => .lookup t
  | assign name value =>
    refine .bind (ih.evaluate value) fun v => .bind (.token name) fun t => ?_
    exact .bind (.assign t v) fun _ => .pure v
  | unary operator right =>
    refine .bind (ih.evaluate right) fun v => .bind (.token operator) fun t => ?_
    exact .operated t _
  | logical left operator right =>
    refine .bind (ih.evaluate left) fun v => .bind (.token operator) fun t => ?_
    exact .ite (.pure v) (ih.evaluate right)
  | binary left operator right =>
    refine .bind (ih.evaluate left) fun a => .bind (ih.evaluate right) fun b => ?_
    exact .bind (.token operator) fun t => .operated t _
  | call callee paren arguments =>
    refine .bind (ih.evaluate callee) fun f => .bind (ih.evaluateAll arguments) fun vs => ?_
    exact ih.apply f vs paren
  | _ => exact .throw _

theorem apply_succ (h : s.Noting T s') (ih : AllAgree T s s' frames) (f : Value)
    (vs : List Value) (paren : Node) :
    Agree T (Run.apply s (frames + 1) f vs paren) (Run.apply s' (frames + 1) f vs paren) := by
  cases f with
  | function closure =>
    rw [apply_function, apply_function]
    exact .ite (.failAt paren _)
      (.bind (.note h (by decide) _) fun _ => .caughtAt paren (ih.invoke closure vs))
  | builtin name =>
    rw [apply_builtin, apply_builtin]
    exact .ite (.failAt paren _) (.bind (.note h (by decide) _) fun _ => .readClock)
  | _ => exact .failAt paren _

theorem invoke_succ_succ (ih : AllAgree T s s' frames) (closure : Closure) (vs : List Value) :
    Agree T (Run.invoke s (frames + 2) closure vs) (Run.invoke s' (frames + 2) closure vs) := by
  refine .bind (.enclose closure.environment) fun inside => ?_
  refine .bind (.inEnvironment inside (.bindParams closure.params vs)) fun _ => ?_
  refine .bind (.blockOf closure.body) fun statements => ?_
  refine .bind (.inEnvironment inside (ih.executeAll statements)) fun c => ?_
  cases c with
  | normal => exact .pure _
  | returned v => exact .pure v

theorem execute_succ (h : s.Noting T s') (ih : AllAgree T s s' frames) (n : Node) :
    Agree T (Run.execute s (frames + 1) n) (Run.execute s' (frames + 1) n) := by
  cases n with
  | expression value => exact .bind (ih.evaluate value) fun _ => .pure _
  | print value => exact .bind (ih.evaluate value) fun v => .bind (.print _) fun _ => .pure _
  | var name initializer =>
    rw [execute_var, execute_var]
    refine .bind (ih.valueOf? initializer) fun v => .bind (.token name) fun t => ?_
    exact .bind (.define t v) fun _ => .bind (.note h (by decide) _) fun _ => .pure _
  | block statements => exact .inScope (ih.executeAll statements)
  | ifElse condition thenBranch elseBranch =>
    rw [execute_ifElse, execute_ifElse]
    refine .bind (ih.evaluate condition) fun v => .bind (.note h (by decide) _) fun _ => ?_
    exact .ite (ih.execute thenBranch) (ih.branchOf? elseBranch)
  | whileDo condition body =>
    have hloop := Agree.loop (ih.evaluate condition) (ih.execute body) s.turns
    unfold Run.execute
    rw [h.turns]
    exact hloop
  | function name params body =>
    refine .get fun m m' hm => .bind (.token name) fun t => ?_
    rw [hm.environment]
    exact .bind (.define t _) fun _ => .bind (.note h (by decide) _) fun _ => .pure _
  | ret keyword value =>
    rw [execute_ret, execute_ret]
    exact .bind (ih.valueOf? value) fun v => .pure _
  | _ => exact .throw _

/-- Invoking a function takes one more frame than the other steps, and is looked at apart. -/
theorem next (h : s.Noting T s') {frames : Nat} (now : AllAgree T s s' frames)
    (hinvoke : ∀ closure vs, Agree T (Run.invoke s (frames + 1) closure vs)
      (Run.invoke s' (frames + 1) closure vs)) :
    AllAgree T s s' (frames + 1) where
  evaluate := evaluate_succ now
  evaluateAll := .collect now.evaluate #[]
  apply := apply_succ h now
  invoke := hinvoke
  executeAll := .sequence now.execute
  execute := execute_succ h now

/-- A call of the evaluator takes one frame or, to invoke a function, two; hence the two bundles. -/
theorem both (h : s.Noting T s') (frames : Nat) :
    AllAgree T s s' frames ∧ AllAgree T s s' (frames + 1) := by
  induction frames with
  | zero => exact ⟨zero, zero.next h fun _ _ => .throw _⟩
  | succ frames ih =>
    obtain ⟨before, now⟩ := ih
    exact ⟨now, now.next h (invoke_succ_succ before)⟩

end AllAgree

theorem agree_topLevel (h : s.Noting T s') (frames : Nat) (n : Node) :
    Agree T (topLevel s frames n) (topLevel s' frames n) :=
  .caughtAt _ ((AllAgree.both h frames).1.execute n)

end Run

namespace Machine

variable {T : Array String → Array String → Prop} {s s' : Settings}

/-- Results of two runs of one program: the same outcome, and machines that are alike. -/
def SameBut (T : Array String → Array String → Prop) (r r' : Outcome × Machine) : Prop :=
  r'.1 = r.1 ∧ r.2.Alike T r'.2

theorem Alike.installBuiltins {m m' : Machine} (hm : m.Alike T m') :
    m.installBuiltins.Alike T m'.installBuiltins := by
  obtain ⟨hs, he, ho, hc, ht⟩ := hm
  refine ⟨?_, he, ho, hc, ht⟩
  simp [Machine.installBuiltins, hs, he]

end Machine

/-- Traces that continue one trace: what the second adds has all that the first adds, in the same
order. -/
def Continues (start a b : Array String) : Prop :=
  ∃ less more, a = start ++ less ∧ b = start ++ more ∧ less.toList.Sublist more.toList

namespace Continues

variable {start a b : Array String}

theorem refl (start : Array String) : Continues start start start :=
  ⟨#[], #[], by simp, by simp, List.Sublist.refl _⟩

theorem push (h : Continues start a b) (line : String) :
    Continues start (a.push line) (b.push line) := by
  obtain ⟨less, more, rfl, rfl, h⟩ := h
  refine ⟨less.push line, more.push line, (Array.append_push ..).symm,
    (Array.append_push ..).symm, ?_⟩
  rw [Array.toList_push, Array.toList_push]
  exact h.append (List.Sublist.refl _)

end Continues

end Lox
