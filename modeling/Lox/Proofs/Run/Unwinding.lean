import Lox.Proofs.Run.Steps

/-!
Returns that unwind. The evaluator hands a return on as the result of each statement up to the call. Here a
return is raised instead, as a jump that goes up through statements, scopes and loops by itself, and that
only the invocation of a function catches, or the run of a program. Main statement: the two evaluators do
the same, whatever the tree and the machine.
-/

set_option autoImplicit false

namespace Lox

/-- What a step is left by before its end: a stop of the run, or a return on its way to the call. -/
inductive Jump where
  | stop (s : Stop)
  | returned (v : Value)

/-- Steps that may be left by a jump. -/
abbrev Unwind := ExceptT Jump (StateM Machine)

namespace Unwind

variable {α β : Type}

/-- A step in which nothing returns. -/
def lifted (x : Run α) : Unwind α := fun m =>
  match x m with
  | (.ok v, m) => (.ok v, m)
  | (.error stop, m) => (.error (.stop stop), m)

instance : MonadLift Run Unwind := ⟨lifted⟩

/-- Runs a step in a new scope, which is left again by whatever leaves the step. -/
def inScope (step : Unwind α) : Unwind α := do
  modify Machine.pushScope
  try step finally modify Machine.popScope

/-- Runs a step in another environment; then the old one is back, whatever leaves the step. -/
def inEnvironment (e : Environment) (step : Unwind α) : Unwind α := do
  let saved := (← get).environment
  modify fun m => { m with environment := e }
  try step finally modify fun m => { m with environment := saved }

/-- Turns the exhaustion of a step into a fault at a place. -/
def caughtAt (place : Node) (step : Unwind α) : Unwind α :=
  tryCatch step fun
    | .stop .exhausted => throw (.stop (Run.faultAt .stackOverflow place))
    | jump => throw jump

/-- Catches a return. Its value is that of the call, and without one the value is nil. -/
def valueReturned (body : Unwind Unit) : Unwind Value :=
  tryCatch (do body; return .nil) fun
    | .returned v => return v
    | jump => throw jump

/-- A loop: as long as the condition is truthy, the body. -/
def loop (condition : Unwind Value) (body : Unwind Unit) : Nat → Unwind Unit
  | 0 => throw (.stop .unfinished)
  | turns + 1 => do
    if (← condition).isTruthy then
      body
      loop condition body turns

open Run (token lookup assign define note print operated bindParams blockOf isOr enclose failAt
  readClock faultAt)

mutual

def evaluate (s : Settings) : Nat → Node → Unwind Value
  | 0, _ => throw (.stop .exhausted)
  | frames + 1, n =>
    match n with
    | .literal t => do
      let t ← token t
      operated t (Value.literal t)
    | .grouping value => evaluate s frames value
    | .variable name => do lookup (← token name)
    | .assign name value => do
      let v ← evaluate s frames value
      assign (← token name) v
      return v
    | .unary operator right => do
      let v ← evaluate s frames right
      let operator ← token operator
      operated operator (v.unary operator)
    | .logical left operator right => do
      let v ← evaluate s frames left
      let operator ← token operator
      if v.isTruthy = isOr operator then return v else evaluate s frames right
    | .binary left operator right => do
      let a ← evaluate s frames left
      let b ← evaluate s frames right
      let operator ← token operator
      operated operator (a.binary operator b)
    | .call callee paren arguments => do
      let f ← evaluate s frames callee
      let vs ← evaluateAll s frames arguments
      apply s frames f vs paren
    | n => throw (.stop (.malformed (.noExpression n)))

def evaluateAll (s : Settings) : Nat → List Node → Unwind (List Value)
  | 0, _ => throw (.stop .exhausted)
  | frames + 1, ns => ns.mapM (evaluate s frames)

/-- Calls a value with arguments, the call's closing parenthesis being at a place. -/
def apply (s : Settings) : Nat → Value → List Value → Node → Unwind Value
  | 0, _, _, _ => throw (.stop .exhausted)
  | frames + 1, f, vs, paren =>
    match f with
    | .function closure => do
      if vs.length ≠ closure.params.length then
        failAt paren (.wrongCount closure.params.length vs.length)
      note s 3 ("call " ++ f.described ++ " with " ++ toString vs.length ++ " arguments")
      caughtAt paren (invoke s frames closure vs)
    | .builtin _ => do
      if vs.length ≠ 0 then failAt paren (.wrongCount 0 vs.length)
      note s 3 ("call " ++ f.described ++ " with 0 arguments")
      readClock
    | _ => failAt paren .notCallable

/-- Runs a function's body in a new scope inside the environment that the function was declared in,
its parameters bound there. Here a return ends. -/
def invoke (s : Settings) : Nat → Closure → List Value → Unwind Value
  | frames + 2, closure, vs => do
    let inside ← enclose closure.environment
    inEnvironment inside (bindParams closure.params vs)
    let statements ← blockOf closure.body
    valueReturned (inEnvironment inside (executeAll s frames statements))
  | _, _, _ => throw (.stop .exhausted)

/-- Statements in order, in the current scope. -/
def executeAll (s : Settings) : Nat → List Node → Unwind Unit
  | 0, _ => throw (.stop .exhausted)
  | frames + 1, ns => ns.forM (execute s frames)

def execute (s : Settings) : Nat → Node → Unwind Unit
  | 0, _ => throw (.stop .exhausted)
  | frames + 1, n =>
    match n with
    | .expression value => do
      let _ ← evaluate s frames value
    | .print value => do
      let v ← evaluate s frames value
      print v.display
    | .var name initializer => do
      let v ←
        match initializer with
        | .missing => pure .nil
        | initializer => evaluate s frames initializer
      let t ← token name
      define t v
      note s 2 ("declare " ++ t.lexeme.shown ++ ": " ++ v.typeName ++ " = " ++ v.display)
    | .block statements => inScope (executeAll s frames statements)
    | .ifElse condition thenBranch elseBranch => do
      let v ← evaluate s frames condition
      note s 3 ("if condition " ++ v.display ++ " -> " ++ (if v.isTruthy then "True" else "False"))
      if v.isTruthy then execute s frames thenBranch
      else
        match elseBranch with
        | .missing => return
        | elseBranch => execute s frames elseBranch
    | .whileDo condition body => loop (evaluate s frames condition) (execute s frames body) s.turns
    | .function name params body => do
      let m ← get
      let t ← token name
      define t (.function ⟨t, params, body, m.environment.capture⟩)
      note s 2 ("define function " ++ t.lexeme.shown ++ "/" ++ toString params.length)
    | .ret _ value => do
      let v ←
        match value with
        | .missing => pure .nil
        | value => evaluate s frames value
      throw (.returned v)
    | n => throw (.stop (.malformed (.noStatement n)))

end

/-- Runs statements in order. A return outside all calls ends here. -/
def interpret (s : Settings) (frames : Nat) (program : Program) : Unwind Unit := do
  note s 1 ("interpret " ++ toString program.length ++ " statements")
  let _ ← valueReturned (program.forM fun n =>
    caughtAt (.token (n.leadingToken.getD (.endAt 0))) (execute s frames n))
  note s 1 "interpret finished"

/-- A statement that hands its return on, as one that raises it. -/
def raised (x : Run Completion) : Unwind Unit := do
  match ← x with
  | .normal => return
  | .returned v => throw (.returned v)

theorem bind_apply (x : Unwind α) (f : α → Unwind β) (m : Machine) :
    (x >>= f) m = match x m with
      | (.ok a, m) => f a m
      | (.error jump, m) => (.error jump, m) := by
  change ExceptT.bindCont f (x m).1 (x m).2 = _
  obtain ⟨r, m'⟩ := x m
  cases r <;> rfl

theorem tryCatch_apply (x : Unwind α) (handler : Jump → Unwind α) (m : Machine) :
    tryCatch x handler m = match x m with
      | (.ok a, m) => (.ok a, m)
      | (.error jump, m) => handler jump m := by
  rcases hx : x m with ⟨_ | a, m'⟩ <;>
    simp only [tryCatch, tryCatchThe, MonadExceptOf.tryCatch, ExceptT.tryCatch, ExceptT.mk, bind,
      StateT.bind, hx]
  rfl

theorem tryFinally_apply (x : Unwind α) (f : Machine → Machine) (m : Machine) :
    (tryFinally x (modify f) : Unwind α) m = ((x m).1, f (x m).2) := by
  rcases hx : x m with ⟨_ | a, m'⟩ <;>
    simp only [tryFinally, tryFinally', ExceptT.mk, Functor.map, ExceptT.map, StateT.bind, bind, hx] <;>
    rfl

theorem inScope_apply (x : Unwind α) (m : Machine) :
    inScope x m = ((x m.pushScope).1, (x m.pushScope).2.popScope) :=
  tryFinally_apply x Machine.popScope m.pushScope

theorem inEnvironment_apply (e : Environment) (x : Unwind α) (m : Machine) :
    inEnvironment e x m = ((x { m with environment := e }).1,
      { (x { m with environment := e }).2 with environment := m.environment }) :=
  tryFinally_apply x (fun a => { a with environment := m.environment }) { m with environment := e }

@[simp] theorem liftM_eq (x : Run α) : (liftM x : Unwind α) = lifted x := rfl

theorem lifted_apply (x : Run α) (m : Machine) :
    lifted x m = match x m with
      | (.ok v, m) => (.ok v, m)
      | (.error stop, m) => (.error (.stop stop), m) := rfl

theorem raised_apply (x : Run Completion) (m : Machine) :
    raised x m = match x m with
      | (.ok .normal, m) => (.ok (), m)
      | (.ok (.returned v), m) => (.error (.returned v), m)
      | (.error stop, m) => (.error (.stop stop), m) := by
  rw [raised, bind_apply, liftM_eq, lifted_apply]
  rcases x m with ⟨_ | _ | v, m'⟩ <;> rfl

@[simp] theorem lifted_bind (x : Run α) (f : α → Run β) :
    lifted (x >>= f) = lifted x >>= fun a => lifted (f a) := by
  funext m
  rw [bind_apply, lifted_apply, lifted_apply, Run.bind_apply]
  rcases x m with ⟨_ | a, m'⟩ <;> rfl

@[simp] theorem raised_bind (x : Run α) (f : α → Run Completion) :
    raised (x >>= f) = lifted x >>= fun a => raised (f a) := by
  change lifted (x >>= f) >>= _ = _
  rw [lifted_bind, bind_assoc]
  rfl

@[simp] theorem lifted_pure (a : α) : lifted (pure a) = pure a := rfl

@[simp] theorem lifted_get : lifted (get : Run Machine) = get := rfl

@[simp] theorem raised_normal : raised (pure .normal) = pure () := rfl

@[simp] theorem raised_returned (v : Value) : raised (pure (.returned v)) = throw (.returned v) := rfl

@[simp] theorem lifted_ite (c : Prop) [Decidable c] (x y : Run α) :
    lifted (if c then x else y) = if c then lifted x else lifted y := apply_ite lifted c x y

@[simp] theorem raised_ite (c : Prop) [Decidable c] (x y : Run Completion) :
    raised (if c then x else y) = if c then raised x else raised y := apply_ite raised c x y

/-- What is left by a return is left before what would come next. -/
theorem raised_andThen (x y : Run Completion) :
    raised (do
      match ← x with
      | .normal => y
      | .returned v => return .returned v) = (do
      raised x
      raised y) := by
  rw [raised_bind, raised, bind_assoc]
  refine congrArg _ (funext fun c => ?_)
  cases c <;> rfl

theorem raised_sequence (statement : Node → Run Completion) (ns : List Node) :
    raised (Run.sequence statement ns) = ns.forM fun n => raised (statement n) := by
  induction ns with
  | nil => rfl
  | cons n ns ih =>
    refine (raised_andThen _ _).trans ?_
    rw [ih]
    rfl

@[simp] theorem raised_loop (condition : Run Value) (body : Run Completion) (turns : Nat) :
    raised (Run.loop condition body turns) = loop (lifted condition) (raised body) turns := by
  induction turns with
  | zero => rfl
  | succ turns ih =>
    rw [Run.loop, loop, raised_bind]
    refine congrArg _ (funext fun v => ?_)
    rw [raised_ite]
    refine congrArg (fun next => if v.isTruthy = true then next else pure ()) ?_
    exact (raised_andThen _ _).trans (by rw [ih])

theorem lifted_collect (value : Node → Run Value) (done : Array Value) (ns : List Node) :
    lifted (Run.collect value done ns) =
      (done.toList ++ ·) <$> ns.mapM fun n => lifted (value n) := by
  induction ns generalizing done with
  | nil => rw [List.mapM_nil, map_pure, List.append_nil, Run.collect, lifted_pure]
  | cons n ns ih =>
    rw [Run.collect, lifted_bind, List.mapM_cons, map_bind]
    refine congrArg _ (funext fun v => ?_)
    rw [ih, map_bind, map_eq_pure_bind]
    refine congrArg _ (funext fun vs => ?_)
    rw [map_pure, Array.toList_push, List.append_assoc, List.singleton_append]

theorem lifted_collect_nil (value : Node → Run Value) (ns : List Node) :
    lifted (Run.collect value #[] ns) = ns.mapM fun n => lifted (value n) := by
  rw [lifted_collect]
  exact id_map _

@[simp] theorem raised_inScope (x : Run Completion) : raised (Run.inScope x) = inScope (raised x) := by
  funext m
  rw [inScope_apply, raised_apply, raised_apply, Run.inScope]
  rcases x m.pushScope with ⟨_ | _ | v, m'⟩ <;> rfl

@[simp] theorem lifted_inEnvironment (e : Environment) (x : Run α) :
    lifted (Run.inEnvironment e x) = inEnvironment e (lifted x) := by
  funext m
  rw [inEnvironment_apply, lifted_apply, lifted_apply, Run.inEnvironment]
  rcases x { m with environment := e } with ⟨_ | v, m'⟩ <;> rfl

theorem raised_inEnvironment (e : Environment) (x : Run Completion) :
    raised (Run.inEnvironment e x) = inEnvironment e (raised x) := by
  funext m
  rw [inEnvironment_apply, raised_apply, raised_apply, Run.inEnvironment]
  rcases x { m with environment := e } with ⟨_ | _ | v, m'⟩ <;> rfl

@[simp] theorem lifted_caughtAt (place : Node) (x : Run α) :
    lifted (Run.caughtAt place x) = caughtAt place (lifted x) := by
  funext m
  rw [caughtAt, tryCatch_apply, lifted_apply, lifted_apply, Run.caughtAt]
  rcases x m with ⟨_ | v, m'⟩
  · next stop => cases stop <;> rfl
  · rfl

@[simp] theorem raised_caughtAt (place : Node) (x : Run Completion) :
    raised (Run.caughtAt place x) = caughtAt place (raised x) := by
  funext m
  rw [caughtAt, tryCatch_apply, raised_apply, raised_apply, Run.caughtAt]
  rcases x m with ⟨_ | _ | v, m'⟩
  · next stop => cases stop <;> rfl
  · rfl
  · rfl

/-- Catching what is raised gives back the value that is handed on. -/
@[simp] theorem valueReturned_raised (x : Run Completion) :
    valueReturned (raised x) = lifted (do
      match ← x with
      | .returned v => return v
      | .normal => return .nil) := by
  funext m
  rw [valueReturned, tryCatch_apply, bind_apply, raised_apply, lifted_apply, Run.bind_apply]
  rcases x m with ⟨_ | _ | v, m'⟩ <;> rfl

/-- The evaluator that raises returns does what the one does that hands them on, given so many frames. -/
structure AllAgree (s : Settings) (frames : Nat) : Prop where
  evaluate : ∀ n, evaluate s frames n = lifted (Run.evaluate s frames n)
  evaluateAll : ∀ ns, evaluateAll s frames ns = lifted (Run.evaluateAll s frames ns)
  apply : ∀ f vs paren, apply s frames f vs paren = lifted (Run.apply s frames f vs paren)
  invoke : ∀ closure vs, invoke s frames closure vs = lifted (Run.invoke s frames closure vs)
  executeAll : ∀ ns, executeAll s frames ns = raised (Run.executeAll s frames ns)
  execute : ∀ n, execute s frames n = raised (Run.execute s frames n)

namespace AllAgree

theorem zero (s : Settings) : AllAgree s 0 where
  evaluate _ := rfl
  evaluateAll _ := rfl
  apply _ _ _ := rfl
  invoke _ _ := rfl
  executeAll _ := rfl
  execute _ := rfl

variable {s : Settings} {frames : Nat}

theorem evaluate_succ (ih : AllAgree s frames) (n : Node) :
    Unwind.evaluate s (frames + 1) n = lifted (Run.evaluate s (frames + 1) n) := by
  cases n with
  | literal t => simp [Unwind.evaluate, Run.evaluate]
  | grouping value => exact ih.evaluate value
  | «variable» name => simp [Unwind.evaluate, Run.evaluate]
  | assign name value => simp [Unwind.evaluate, Run.evaluate, ih.evaluate, -bind_pure_comp]
  | unary operator right => simp [Unwind.evaluate, Run.evaluate, ih.evaluate]
  | logical left operator right => simp [Unwind.evaluate, Run.evaluate, ih.evaluate]
  | binary left operator right => simp [Unwind.evaluate, Run.evaluate, ih.evaluate]
  | call callee paren arguments =>
    simp [Unwind.evaluate, Run.evaluate, ih.evaluate, ih.evaluateAll, ih.apply]
  | _ => rfl

theorem evaluateAll_succ (ih : AllAgree s frames) (ns : List Node) :
    Unwind.evaluateAll s (frames + 1) ns = lifted (Run.evaluateAll s (frames + 1) ns) := by
  rw [Run.evaluateAll, lifted_collect_nil]
  exact congrArg (fun value => ns.mapM value) (funext ih.evaluate)

theorem apply_succ (ih : AllAgree s frames) (f : Value) (vs : List Value) (paren : Node) :
    Unwind.apply s (frames + 1) f vs paren = lifted (Run.apply s (frames + 1) f vs paren) := by
  cases f with
  | function closure => simp only [Unwind.apply, Run.apply, lifted_bind, liftM_eq, lifted_ite,
      lifted_caughtAt, ih.invoke]
  | builtin name => simp only [Unwind.apply, Run.apply, lifted_bind, liftM_eq, lifted_ite]
  | _ => rfl

theorem invoke_succ_succ (ih : AllAgree s frames) (closure : Closure) (vs : List Value) :
    Unwind.invoke s (frames + 2) closure vs = lifted (Run.invoke s (frames + 2) closure vs) := by
  rw [Unwind.invoke, Run.invoke, lifted_bind]
  refine congrArg _ (funext fun inside => ?_)
  rw [lifted_bind, lifted_inEnvironment]
  refine congrArg _ (funext fun _ => ?_)
  rw [lifted_bind]
  refine congrArg _ (funext fun ns => ?_)
  rw [ih.executeAll, ← raised_inEnvironment]
  exact valueReturned_raised _

theorem executeAll_succ (ih : AllAgree s frames) (ns : List Node) :
    Unwind.executeAll s (frames + 1) ns = raised (Run.executeAll s (frames + 1) ns) := by
  rw [Run.executeAll, raised_sequence]
  exact congrArg (fun statement => ns.forM statement) (funext ih.execute)

theorem execute_succ (ih : AllAgree s frames) (n : Node) :
    Unwind.execute s (frames + 1) n = raised (Run.execute s (frames + 1) n) := by
  cases n with
  | expression value => simp [Unwind.execute, Run.execute, ih.evaluate, -bind_pure_comp]
  | print value =>
    simp [Unwind.execute, Run.execute, ih.evaluate, bind_pure_unit, -bind_pure_comp]
  | var name initializer =>
    cases initializer <;>
      simp [Unwind.execute, Run.execute, ih.evaluate, bind_pure_unit, -bind_pure_comp]
  | block statements => simp [Unwind.execute, Run.execute, ih.executeAll]
  | ifElse condition thenBranch elseBranch =>
    cases elseBranch <;> simp [Unwind.execute, Run.execute, ih.evaluate, ih.execute]
  | whileDo condition body => simp [Unwind.execute, Run.execute, ih.evaluate, ih.execute]
  | function name params body =>
    simp [Unwind.execute, Run.execute, bind_pure_unit, -bind_pure_comp]
  | ret keyword value =>
    cases value <;> simp [Unwind.execute, Run.execute, ih.evaluate, -bind_pure_comp]
  | _ => rfl

/-- Invoking a function takes one more frame than the other steps, and is looked at apart. -/
theorem next {s : Settings} {frames : Nat} (now : AllAgree s frames)
    (hinvoke : ∀ closure vs,
      Unwind.invoke s (frames + 1) closure vs = lifted (Run.invoke s (frames + 1) closure vs)) :
    AllAgree s (frames + 1) where
  evaluate := evaluate_succ now
  evaluateAll := evaluateAll_succ now
  apply := apply_succ now
  invoke := hinvoke
  executeAll := executeAll_succ now
  execute := execute_succ now

/-- A call of the evaluator takes one frame or, to invoke a function, two; hence the two bundles. -/
theorem both (s : Settings) (frames : Nat) : AllAgree s frames ∧ AllAgree s (frames + 1) := by
  induction frames with
  | zero => exact ⟨zero s, (zero s).next fun _ _ => rfl⟩
  | succ frames ih =>
    obtain ⟨before, now⟩ := ih
    exact ⟨now, now.next (invoke_succ_succ before)⟩

end AllAgree

theorem interpret_eq (s : Settings) (frames : Nat) (p : Program) :
    interpret s frames p = lifted (Run.interpret s frames p) := by
  have hstatements : (p.forM fun n =>
      caughtAt (.token (n.leadingToken.getD (.endAt 0))) (execute s frames n)) =
      raised (Run.sequence (Run.topLevel s frames) p) := by
    rw [raised_sequence]
    refine congrArg (fun statement => p.forM statement) (funext fun n => ?_)
    rw [(AllAgree.both s frames).1.execute, Run.topLevel, raised_caughtAt]
  rw [interpret, hstatements, valueReturned_raised, Run.interpret, lifted_bind, lifted_bind, lifted_bind]
  refine congrArg _ (funext fun _ => ?_)
  rw [bind_assoc]
  refine congrArg _ (funext fun c => ?_)
  cases c <;> rfl

end Unwind

/-- To hand a return on as the result of each statement is the same as to raise it. The evaluator whose
returns are jumps that only an invocation or the program catches gives the same values, faults and other
stops and leaves the same machine: for every tree, every machine, and as many frames and turns. Where a
statement ends with a return, it is left there by the jump with the same value. -/
theorem Run.returns_unwind (s : Settings) (frames : Nat) :
    (∀ n, Unwind.evaluate s frames n = Unwind.lifted (evaluate s frames n)) ∧
    (∀ ns, Unwind.evaluateAll s frames ns = Unwind.lifted (evaluateAll s frames ns)) ∧
    (∀ f vs paren, Unwind.apply s frames f vs paren = Unwind.lifted (apply s frames f vs paren)) ∧
    (∀ closure vs, Unwind.invoke s frames closure vs = Unwind.lifted (invoke s frames closure vs)) ∧
    (∀ ns, Unwind.executeAll s frames ns = Unwind.raised (executeAll s frames ns)) ∧
    (∀ n, Unwind.execute s frames n = Unwind.raised (execute s frames n)) ∧
    (∀ p, Unwind.interpret s frames p = Unwind.lifted (interpret s frames p)) := by
  obtain ⟨h, -⟩ := Unwind.AllAgree.both s frames
  exact ⟨h.evaluate, h.evaluateAll, h.apply, h.invoke, h.executeAll, h.execute,
    Unwind.interpret_eq s frames⟩

end Lox
