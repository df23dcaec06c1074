import Lox.Run.Program

/-!
How steps of a run compose. What a step does to a machine is a relation between the machine before
and the one after. Main statement: a relation that composes, that every simple step keeps, and that
the two ways of changing the environment keep, is kept by everything the evaluator does, however it
ends.
-/

set_option autoImplicit false

namespace Lox

namespace Run

variable {α β : Type}

theorem bind_apply (x : Run α) (f : α → Run β) (m : Machine) :
    (x >>= f) m = match x m with
      | (.ok a, m) => f a m
      | (.error stop, m) => (.error stop, m) := by
  change ExceptT.bindCont f (x m).1 (x m).2 = _
  obtain ⟨r, m'⟩ := x m
  cases r <;> rfl

@[simp] theorem pure_apply (a : α) (m : Machine) : (pure a : Run α) m = (.ok a, m) := rfl

@[simp] theorem get_apply (m : Machine) : (get : Run Machine) m = (.ok m, m) := rfl

@[simp] theorem throw_apply (stop : Stop) (m : Machine) :
    (throw stop : Run α) m = (.error stop, m) := rfl

theorem sequence_append (statement : Node → Run Completion) (ns ms : List Node) :
    sequence statement (ns ++ ms) = (do
      match ← sequence statement ns with
      | .normal => sequence statement ms
      | .returned v => return .returned v) := by
  induction ns with
  | nil => rw [List.nil_append, sequence, pure_bind]
  | cons n ns ih =>
    rw [List.cons_append, sequence, sequence, ih, bind_assoc]
    refine congrArg _ (funext fun c => ?_)
    cases c with
    | normal => rfl
    | returned v => rw [pure_bind]

theorem collect_append (value : Node → Run Value) (done : Array Value) (ns ms : List Node) :
    collect value done (ns ++ ms) = (do
      let vs ← collect value done ns
      collect value vs.toArray ms) := by
  induction ns generalizing done with
  | nil => rw [List.nil_append, collect, pure_bind, Array.toArray_toList]
  | cons n ns ih =>
    rw [List.cons_append, collect, collect, bind_assoc]
    exact congrArg _ (funext fun v => ih (done.push v))

/-- The value of an expression that may be left out. -/
def valueOf? (s : Settings) (frames : Nat) : Node → Run Value
  | .missing => return .nil
  | n => evaluate s frames n

/-- A branch that may be left out. -/
def branchOf? (s : Settings) (frames : Nat) : Node → Run Completion
  | .missing => return .normal
  | n => execute s frames n

theorem valueOf?_of_ne {n : Node} (h : n ≠ .missing) (s : Settings) (frames : Nat) :
    valueOf? s frames n = evaluate s frames n := by
  cases n with
  | missing => exact absurd rfl h
  | _ => rfl

theorem branchOf?_of_ne {n : Node} (h : n ≠ .missing) (s : Settings) (frames : Nat) :
    branchOf? s frames n = execute s frames n := by
  cases n with
  | missing => exact absurd rfl h
  | _ => rfl

theorem execute_var (s : Settings) (frames : Nat) (name initializer : Node) :
    execute s (frames + 1) (.var name initializer) = (do
      let v ← valueOf? s frames initializer
      let t ← token name
      define t v
      note s 2 ("declare " ++ t.lexeme.shown ++ ": " ++ v.typeName ++ " = " ++ v.display)
      return .normal) := by
  cases initializer <;> rfl

theorem execute_ifElse (s : Settings) (frames : Nat) (condition thenBranch elseBranch : Node) :
    execute s (frames + 1) (.ifElse condition thenBranch elseBranch) = (do
      let v ← evaluate s frames condition
      note s 3 ("if condition " ++ v.display ++ " -> " ++ (if v.isTruthy then "True" else "False"))
      if v.isTruthy then execute s frames thenBranch else branchOf? s frames elseBranch) := by
  cases elseBranch <;> rfl

theorem execute_ret (s : Settings) (frames : Nat) (keyword value : Node) :
    execute s (frames + 1) (.ret keyword value) = (do
      let v ← valueOf? s frames value
      return .returned v) := by
  cases value <;> rfl

theorem apply_function (s : Settings) (frames : Nat) (closure : Closure) (vs : List Value)
    (paren : Node) :
    apply s (frames + 1) (.function closure) vs paren =
      if vs.length ≠ closure.params.length then
        failAt paren (.wrongCount closure.params.length vs.length)
      else (do
        note s 3 ("call " ++ (Value.function closure).described ++ " with " ++
          toString vs.length ++ " arguments")
        caughtAt paren (invoke s frames closure vs)) := by
  simp only [apply]
  split <;> rfl

theorem apply_builtin (s : Settings) (frames : Nat) (name : String) (vs : List Value)
    (paren : Node) :
    apply s (frames + 1) (.builtin name) vs paren =
      if vs.length ≠ 0 then failAt paren (.wrongCount 0 vs.length)
      else (do
        note s 3 ("call " ++ (Value.builtin name).described ++ " with 0 arguments")
        readClock) := by
  simp only [apply]
  split <;> rfl

/-- A relation between the machine before a step and the one after it that holds however it ends. -/
def Keeps (R : Machine → Machine → Prop) (step : Run α) : Prop := ∀ m, R m (step m).2

/-- What a relation between machines has to bear with to be kept by every step that changes no binding
and no environment. -/
structure QuietLaw (R : Machine → Machine → Prop) : Prop where
  refl : ∀ m, R m m
  trans : ∀ {a b c}, R a b → R b c → R a c
  noted : ∀ m (line : String), R m { m with trace := m.trace.push line }
  printed : ∀ m (line : String), R m { m with output := m.output ++ line ++ "\n" }
  ticked : ∀ m clock, R m { m with clock }

/-- What a relation between machines has to bear with to be kept by every step. -/
structure Law (R : Machine → Machine → Prop) : Prop extends QuietLaw R where
  bound : ∀ m id name v, R m { m with store := m.store.set id name v }
  grown : ∀ m, R m { m with store := m.store.addScope }
  inScope : ∀ {m m'}, R m.pushScope m' → R m m'.popScope
  inEnvironment : ∀ {m m'} e, R { m with environment := e } m' →
    R m { m' with environment := m.environment }

variable {R : Machine → Machine → Prop}

instance : Coe (Law R) (QuietLaw R) := ⟨Law.toQuietLaw⟩

namespace Keeps

theorem pure (h : QuietLaw R) (a : α) : Keeps R (pure a : Run α) := fun m => h.refl m

theorem throw (h : QuietLaw R) (stop : Stop) : Keeps R (throw stop : Run α) := fun m => h.refl m

theorem bind (h : QuietLaw R) {x : Run α} {f : α → Run β} (hx : Keeps R x)
    (hf : ∀ a, Keeps R (f a)) : Keeps R (x >>= f) := by
  intro m
  have hm := hx m
  rw [bind_apply]
  cases hr : x m with
  | mk r m' =>
    rw [hr] at hm
    cases r with
    | error stop => exact hm
    | ok a => exact h.trans hm (hf a m')

theorem ite {c : Prop} [Decidable c] {x y : Run α} (hx : Keeps R x) (hy : Keeps R y) :
    Keeps R (if c then x else y) := by
  split
  · exact hx
  · exact hy

theorem get (h : QuietLaw R) : Keeps R (MonadState.get : Run Machine) := fun m => h.refl m

theorem note (h : QuietLaw R) (s : Settings) (level : Nat) (line : String) :
    Keeps R (note s level line) := by
  intro m
  unfold Run.note
  split
  · exact h.noted m line
  · exact h.refl m

theorem print (h : QuietLaw R) (line : String) : Keeps R (print line) := fun m => h.printed m line

theorem failAt (h : QuietLaw R) (place : Node) (f : Fault) : Keeps R (failAt place f : Run α) :=
  throw h (faultAt f place)

theorem token (h : QuietLaw R) (n : Node) : Keeps R (token n) := by
  cases n with
  | token t => exact pure h t
  | _ => exact throw h _

theorem name (h : QuietLaw R) (t : Token) : Keeps R (name t) := by
  unfold Run.name
  split
  · exact pure h _
  · exact throw h _

theorem lookup (h : QuietLaw R) (t : Token) : Keeps R (lookup t) := by
  refine bind h (name h t) fun n => bind h (get h) fun m => ?_
  split
  · exact pure h _
  · exact throw h _

theorem define (h : Law R) (t : Token) (v : Value) : Keeps R (define t v) :=
  bind h (name h t) fun n m => h.bound m m.environment.innermost n v

theorem assign (h : Law R) (t : Token) (v : Value) : Keeps R (assign t v) := by
  refine bind h (name h t) fun n => bind h (get h) fun m => ?_
  split
  · exact fun m => h.bound m _ n v
  · exact throw h _

theorem enclose (h : Law R) (e : Environment) : Keeps R (enclose e) := fun m => h.grown m

theorem readClock (h : QuietLaw R) : Keeps R readClock := fun m => h.ticked m _

theorem operated (h : QuietLaw R) (operator : Token) (r : Except Fault Value) :
    Keeps R (operated operator r) := by
  cases r with
  | ok v => exact pure h v
  | error f => exact throw h _

theorem blockOf (h : QuietLaw R) (n : Node) : Keeps R (blockOf n) := by
  cases n with
  | block statements => exact pure h statements
  | _ => exact throw h _

theorem bindParams (h : Law R) (params : List Node) (vs : List Value) :
    Keeps R (bindParams params vs) := by
  induction params generalizing vs with
  | nil => cases vs <;> exact pure h ()
  | cons param params ih =>
    cases vs with
    | nil => exact pure h ()
    | cons v vs =>
      exact bind h (token h param) fun t => bind h (define h t v) fun _ => ih vs

theorem inScope (h : Law R) {step : Run α} (hs : Keeps R step) : Keeps R (inScope step) :=
  fun m => h.inScope (hs m.pushScope)

theorem inEnvironment (h : Law R) (e : Environment) {step : Run α} (hs : Keeps R step) :
    Keeps R (inEnvironment e step) :=
  fun m => h.inEnvironment e (hs { m with environment := e })

theorem caughtAt (place : Node) {step : Run α} (hs : Keeps R step) :
    Keeps R (caughtAt place step) := by
  intro m
  have hm := hs m
  unfold Run.caughtAt
  split
  next h => rw [h] at hm; exact hm
  next => exact hm

theorem collect (h : QuietLaw R) {value : Node → Run Value} (hv : ∀ n, Keeps R (value n))
    (done : Array Value) (ns : List Node) : Keeps R (collect value done ns) := by
  induction ns generalizing done with
  | nil => exact pure h _
  | cons n ns ih => exact bind h (hv n) fun v => ih (done.push v)

theorem sequence (h : QuietLaw R) {statement : Node → Run Completion}
    (hs : ∀ n, Keeps R (statement n)) (ns : List Node) : Keeps R (sequence statement ns) := by
  induction ns with
  | nil => exact pure h _
  | cons n ns ih =>
    refine bind h (hs n) fun c => ?_
    cases c with
    | normal => exact ih
    | returned v => exact pure h _

theorem loop (h : QuietLaw R) {condition : Run Value} {body : Run Completion}
    (hc : Keeps R condition) (hb : Keeps R body) (turns : Nat) :
    Keeps R (loop condition body turns) := by
  induction turns with
  | zero => exact throw h _
  | succ turns ih =>
    refine bind h hc fun v => ite (bind h hb fun c => ?_) (pure h _)
    cases c with
    | normal => exact ih
    | returned v => exact pure h _

end Keeps

/-- All six functions of the evaluator keep a relation, given so many frames. -/
structure AllKeep (R : Machine → Machine → Prop) (s : Settings) (frames : Nat) : Prop where
  evaluate : ∀ n, Keeps R (evaluate s frames n)
  evaluateAll : ∀ ns, Keeps R (evaluateAll s frames ns)
  apply : ∀ f vs paren, Keeps R (apply s frames f vs paren)
  invoke : ∀ closure vs, Keeps R (invoke s frames closure vs)
  executeAll : ∀ ns, Keeps R (executeAll s frames ns)
  execute : ∀ n, Keeps R (execute s frames n)

namespace AllKeep

theorem zero (h : Law R) (s : Settings) : AllKeep R s 0 where
  evaluate _ := .throw h _
  evaluateAll _ := .throw h _
  apply _ _ _ := .throw h _
  invoke _ _ := .throw h _
  executeAll _ := .throw h _
  execute _ := .throw h _

variable {s : Settings} {frames : Nat}

theorem valueOf? (h : Law R) (ih : AllKeep R s frames) (n : Node) :
    Keeps R (valueOf? s frames n) := by
  cases n with
  | missing => exact .pure h _
  | _ => exact ih.evaluate _

theorem branchOf? (h : Law R) (ih : AllKeep R s frames) (n : Node) :
    Keeps R (branchOf? s frames n) := by
  cases n with
  | missing => exact .pure h _
  | _ => exact ih.execute _

theorem evaluate_succ (h : Law R) (ih : AllKeep R s frames) (n : Node) :
    Keeps R (Run.evaluate s (frames + 1) n) := by
  cases n with
  | literal t => exact .bind h (.token h t) fun t => .operated h t _
  | grouping value => exact ih.evaluate value
  | «variable» name => exact .bind h (.token h name) fun t => .lookup h t
  | assign name value =>
    refine .bind h (ih.evaluate value) fun v => .bind h (.token h name) fun t => ?_
    exact .bind h (.assign h t v) fun _ => .pure h v
  | unary operator right =>
    refine .bind h (ih.evaluate right) fun v => .bind h (.token h operator) fun t => ?_
    exact .operated h t _
  | logical left operator right =>
    refine .bind h (ih.evaluate left) fun v => .bind h (.token h operator) fun t => ?_
    exact .ite (.pure h v) (ih.evaluate right)
  | binary left operator right =>
    refine .bind h (ih.evaluate left) fun a => .bind h (ih.evaluate right) fun b => ?_
    exact .bind h (.token h operator) fun t => .operated h t _
  | call callee paren arguments =>
    refine .bind h (ih.evaluate callee) fun f => .bind h (ih.evaluateAll arguments) fun vs => ?_
    exact ih.apply f vs paren
  | _ => exact .throw h _

theorem apply_succ (h : Law R) (ih : AllKeep R s frames) (f : Value) (vs : List Value)
    (paren : Node) : Keeps R (Run.apply s (frames + 1) f vs paren) := by
  cases f with
  | function closure =>
    rw [apply_function]
    exact .ite (.failAt h paren _) (.bind h (.note h s 3 _) fun _ =>
      .caughtAt paren (ih.invoke closure vs))
  | builtin name =>
    rw [apply_builtin]
    exact .ite (.failAt h paren _) (.bind h (.note h s 3 _) fun _ => .readClock h)
  | _ => exact .failAt h paren _

theorem invoke_succ_succ (h : Law R) (ih : AllKeep R s frames) (closure : Closure)
    (vs : List Value) : Keeps R (Run.invoke s (frames + 2) closure vs) := by
  refine .bind h (.enclose h closure.environment) fun inside => ?_
  refine .bind h (.inEnvironment h inside (.bindParams h closure.params vs)) fun _ => ?_
  refine .bind h (.blockOf h closure.body) fun statements => ?_
  refine .bind h (.inEnvironment h inside (ih.executeAll statements)) fun c => ?_
  cases c with
  | normal => exact .pure h _
  | returned v => exact .pure h v

theorem execute_succ (h : Law R) (ih : AllKeep R s frames) (n : Node) :
    Keeps R (Run.execute s (frames + 1) n) := by
  cases n with
  | expression value => exact .bind h (ih.evaluate value) fun _ => .pure h _
  | print value =>
    exact .bind h (ih.evaluate value) fun v => .bind h (.print h _) fun _ => .pure h _
  | var name initializer =>
    rw [execute_var]
    refine .bind h (ih.valueOf? h initializer) fun v => .bind h (.token h name) fun t => ?_
    exact .bind h (.define h t v) fun _ => .bind h (.note h s 2 _) fun _ => .pure h _
  | block statements => exact .inScope h (ih.executeAll statements)
  | ifElse condition thenBranch elseBranch =>
    rw [execute_ifElse]
    refine .bind h (ih.evaluate condition) fun v => .bind h (.note h s 3 _) fun _ => ?_
    exact .ite (ih.execute thenBranch) (ih.branchOf? h elseBranch)
  | whileDo condition body => exact .loop h (ih.evaluate condition) (ih.execute body) s.turns
  | function name params body =>
    refine .bind h (.get h) fun m => .bind h (.token h name) fun t => ?_
    exact .bind h (.define h t _) fun _ => .bind h (.note h s 2 _) fun _ => .pure h _
  | ret keyword value =>
    rw [execute_ret]
    exact .bind h (ih.valueOf? h value) fun v => .pure h _
  | _ => exact .throw h _

/-- Invoking a function takes one more frame than the other steps, and is looked at apart. -/
theorem next (h : Law R) {s : Settings} {frames : Nat} (now : AllKeep R s frames)
    (hinvoke : ∀ closure vs, Keeps R (Run.invoke s (frames + 1) closure vs)) :
    AllKeep R s (frames + 1) where
  evaluate := evaluate_succ h now
  evaluateAll := .collect h now.evaluate #[]
  apply := apply_succ h now
  invoke := hinvoke
  executeAll := .sequence h now.execute
  execute := execute_succ h now

/-- A call of the evaluator takes one frame or, to invoke a function, two; hence the two bundles. -/
theorem both (h : Law R) (s : Settings) (frames : Nat) :
    AllKeep R s frames ∧ AllKeep R s (frames + 1) := by
  induction frames with
  | zero => exact ⟨zero h s, next h (zero h s) fun _ _ => .throw h _⟩
  | succ frames ih =>
    obtain ⟨before, now⟩ := ih
    exact ⟨now, next h now (invoke_succ_succ h before)⟩

end AllKeep

/-- The evaluator keeps every law. -/
theorem allKeep (h : Law R) (s : Settings) (frames : Nat) : AllKeep R s frames :=
  (AllKeep.both h s frames).1

theorem keeps_topLevel (h : Law R) (s : Settings) (frames : Nat) (n : Node) :
    Keeps R (topLevel s frames n) :=
  .caughtAt _ ((allKeep h s frames).execute n)

theorem keeps_interpret (h : Law R) (s : Settings) (frames : Nat) (program : Program) :
    Keeps R (interpret s frames program) := by
  refine .bind h (.note h s 1 _) fun _ => ?_
  exact .bind h (.sequence h (keeps_topLevel h s frames) program) fun _ => .note h s 1 _

theorem keeps_source (h : Law R) (s : Settings) (frames : Nat) (text : String) :
    Keeps R (source s frames text) := by
  refine .bind h (.note h s 1 _) fun _ => .ite (.pure h _) ?_
  refine .bind h (.note h s 1 _) fun _ => ?_
  split
  · exact .pure h _
  · exact .bind h (keeps_interpret h s frames _) fun _ => .pure h _

end Run

/-- The outcome that a run of statements gives. -/
def Outcome.ofUnit : Except Stop Unit → Outcome
  | .ok () => .ok
  | .error stop => .stopped stop

theorem Machine.interpret_eq (s : Settings) (frames : Nat) (p : Program) (m : Machine) :
    m.interpret s frames p =
      (.ofUnit (Run.interpret s frames p m).1, (Run.interpret s frames p m).2) := by
  unfold interpret
  rcases Run.interpret s frames p m with ⟨_ | _, n⟩ <;> rfl

end Lox
