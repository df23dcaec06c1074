import Lox.Proofs.Run.Calls
import Lox.Proofs.Run.Scopes

/-!
Which names a run binds, and where. Main statement: no scope ever loses a name, a scope that was there
before can gain one only if a statement is executed in it, and then only a name that the statement
declares outside its blocks and function bodies.
-/

set_option autoImplicit false

namespace Lox

/-- The names that a statement declares in the scope that it is executed in. What it declares in its
blocks and function bodies is not among them. -/
def Node.declared : Node → List Name
  | .var (.token t) _ => t.name?.toList
  | .function (.token t) _ _ => t.name?.toList
  | .ifElse _ thenBranch elseBranch => thenBranch.declared ++ elseBranch.declared
  | .whileDo _ body => body.declared
  | _ => []

/-- Only statements declare names. -/
def Task.declared : Task → List Name
  | .execute n => n.declared
  | .executeAll ns => ns.flatMap Node.declared
  | _ => []

/-- A name that a source text declares outside its blocks and function bodies. -/
def Program.Declares (frames : Nat) (text : String) (name : Name) : Prop :=
  ∃ program, Program.ofSource frames text = .ok program ∧ name ∈ program.flatMap Node.declared

theorem Store.binds_set (store : Store) (id other : ScopeId) (n name : Name) (v : Value) :
    ((store.set id n v).scope other).binds name ↔
      (store.scope other).binds name ∨ (other = id ∧ id < store.fresh ∧ name = n) := by
  rcases Nat.lt_or_ge id store.fresh with hid | hid
  · rw [scope_set store id other n v hid]
    by_cases ho : other = id
    · subst ho
      by_cases hn : name = n
      · simp [Scope.binds, Scope.get?_set, hn, hid]
      · simp [Scope.binds, Scope.get?_set, hn]
    · simp [ho]
  · have hlt : ¬ id < store.fresh := Nat.not_lt.2 hid
    simp [set_of_fresh_le hid, hlt]

/-- A scope that is not there binds nothing. -/
theorem Store.lt_of_binds {store : Store} {id : ScopeId} {name : Name}
    (h : (store.scope id).binds name) : id < store.fresh := by
  rcases Nat.lt_or_ge id store.fresh with hid | hid
  · exact hid
  · have hnone : store.scopes[id]? = none := Array.getElem?_eq_none hid
    simp [scope, Array.getD_eq_getD_getElem?, hnone, Scope.binds] at h

theorem Environment.binds_of_find? {e : Environment} {store : Store} {name : Name} {id : ScopeId}
    (h : e.find? store name = some id) : (store.scope id).binds name := by
  have hb := List.find?_some h
  simpa using hb

/-- A scope keeps its names, and gains names of a sort at most while it is the innermost one. -/
structure Machine.Gains (id : ScopeId) (names : Name → Prop) (m m' : Machine) : Prop where
  environment : m'.environment = m.environment
  fresh_le : m.store.fresh ≤ m'.store.fresh
  kept : ∀ name, (m.store.scope id).binds name → (m'.store.scope id).binds name
  gained : ∀ name, (m'.store.scope id).binds name →
    (m.store.scope id).binds name ∨ (id = m.environment.innermost ∧ names name)

namespace Machine.Gains

variable {id : ScopeId} {names more : Name → Prop} {a b c : Machine}

theorem refl (m : Machine) : m.Gains id names m := ⟨rfl, Nat.le_refl _, fun _ h => h, fun _ => .inl⟩

theorem trans (h : a.Gains id names b) (h' : b.Gains id names c) : a.Gains id names c := by
  refine ⟨h'.environment.trans h.environment, Nat.le_trans h.fresh_le h'.fresh_le,
    fun name hn => h'.kept name (h.kept name hn), fun name hn => ?_⟩
  rcases h'.gained name hn with hb | ⟨hid, hname⟩
  · exact h.gained name hb
  · rw [h.environment] at hid
    exact .inr ⟨hid, hname⟩

theorem mono (h : a.Gains id names b) (hs : ∀ name, names name → more name) :
    a.Gains id more b := by
  refine ⟨h.environment, h.fresh_le, h.kept, fun name hn => ?_⟩
  rcases h.gained name hn with hb | ⟨hid, hname⟩
  · exact .inl hb
  · exact .inr ⟨hid, hs name hname⟩

/-- No new name comes into a scope that is not the innermost one, under whatever environment. -/
theorem outside {e : Environment} (he : e.innermost ≠ id)
    (h : Machine.Gains id names { a with environment := e } b) :
    a.Gains id more { b with environment := a.environment } := by
  refine ⟨rfl, h.fresh_le, h.kept, fun name hn => ?_⟩
  rcases h.gained name hn with hb | ⟨hid, _⟩
  · exact .inl hb
  · exact absurd hid.symm he

theorem set (m : Machine) (target : ScopeId) (n : Name) (v : Value)
    (h : id = target → (m.store.scope id).binds n ∨ (id = m.environment.innermost ∧ names n)) :
    m.Gains id names { m with store := m.store.set target n v } := by
  refine ⟨rfl, by simp, fun name hn => ?_, fun name hn => ?_⟩
  · exact (Store.binds_set m.store target id n name v).2 (.inl hn)
  · rcases (Store.binds_set m.store target id n name v).1 hn with hb | ⟨ht, -, rfl⟩
    · exact .inl hb
    · exact h ht

theorem addScope (m : Machine) : m.Gains id names { m with store := m.store.addScope } := by
  refine ⟨rfl, by simp, fun name hn => ?_, fun name hn => .inl ?_⟩
  · rwa [Store.scope_addScope_eq]
  · rwa [Store.scope_addScope_eq] at hn

end Machine.Gains

namespace Run

variable {α β : Type} {id : ScopeId} {names more : Name → Prop}

/-- A step that lets a scope, if it is there already, gain names of a sort at most. -/
def Declares (id : ScopeId) (names : Name → Prop) : Run α → Prop :=
  Keeps fun m m' => id < m.store.fresh → m.Gains id names m'

/-- A step that lets no scope that is there already gain a name. -/
abbrev DeclaresNothing (id : ScopeId) : Run α → Prop := Declares id fun _ => False

theorem quietLaw_gains (id : ScopeId) (names : Name → Prop) :
    QuietLaw fun m m' => id < m.store.fresh → m.Gains id names m' where
  refl m _ := .refl m
  trans h h' hid := (h hid).trans (h' (Nat.lt_of_lt_of_le hid (h hid).fresh_le))
  noted _ _ _ := ⟨rfl, Nat.le_refl _, fun _ h => h, fun _ => .inl⟩
  printed _ _ _ := ⟨rfl, Nat.le_refl _, fun _ h => h, fun _ => .inl⟩
  ticked _ _ _ := ⟨rfl, Nat.le_refl _, fun _ h => h, fun _ => .inl⟩

namespace Declares

theorem mono {step : Run α} (h : Declares id names step) (hs : ∀ name, names name → more name) :
    Declares id more step := fun m hid => (h m hid).mono hs

theorem ofNothing {step : Run α} (h : DeclaresNothing id step) : Declares id names step :=
  h.mono fun _ => False.elim

theorem pure (a : α) : Declares id names (pure a : Run α) :=
  Keeps.pure (quietLaw_gains id names) a

theorem throw (stop : Stop) : Declares id names (throw stop : Run α) :=
  Keeps.throw (quietLaw_gains id names) stop

theorem bind {x : Run α} {f : α → Run β} (hx : Declares id names x)
    (hf : ∀ a, Declares id names (f a)) : Declares id names (x >>= f) :=
  Keeps.bind (quietLaw_gains id names) hx hf

theorem note (s : Settings) (level : Nat) (line : String) :
    Declares id names (note s level line) :=
  Keeps.note (quietLaw_gains id names) s level line

theorem token (n : Node) : Declares id names (token n) :=
  Keeps.token (quietLaw_gains id names) n

/-- What is done with the token at a place is known to be done with that token. -/
theorem bind_token {n : Node} {f : Token → Run α}
    (h : ∀ t, n = .token t → Declares id names (f t)) : Declares id names (Run.token n >>= f) := by
  cases n with
  | token t => exact h t rfl
  | _ => exact throw _

theorem define {t : Token} (v : Value) (h : ∀ n, t.name? = some n → names n) :
    Declares id names (define t v) := by
  intro m hid
  unfold Run.define Run.name
  cases hn : t.name? with
  | none => exact .refl m
  | some n => exact .set m m.environment.innermost n v fun ht => .inr ⟨ht, h n hn⟩

theorem assign (t : Token) (v : Value) : Declares id names (assign t v) := by
  refine .bind (.name (quietLaw_gains id names) t) fun n m hid => ?_
  simp only [bind_apply, get_apply]
  cases hf : m.environment.find? m.store n with
  | none => exact .refl m
  | some target =>
    refine .set m target n v fun ht => .inl ?_
    rw [ht]
    exact Environment.binds_of_find? hf

theorem bindParams (params : List Node) (vs : List Value) :
    Declares id (fun _ => True) (bindParams params vs) := by
  induction params generalizing vs with
  | nil => cases vs <;> exact .pure ()
  | cons param params ih =>
    cases vs with
    | nil => exact .pure ()
    | cons v vs =>
      exact (token param).bind fun t => (define v fun _ _ => trivial).bind fun _ => ih vs

theorem inEnvironment {e : Environment} (he : e.innermost ≠ id) {step : Run α}
    (h : Declares id names step) : DeclaresNothing id (inEnvironment e step) :=
  fun m hid => (h { m with environment := e } hid).outside he

/-- The scope that a block is executed in is a new one. -/
theorem inScope {step : Run α} (h : Declares id names step) : DeclaresNothing id (inScope step) := by
  intro m hid
  have hpush : m.pushScope.environment.innermost = m.store.fresh := rfl
  have hne : m.pushScope.environment.innermost ≠ id := by rw [hpush]; exact Nat.ne_of_gt hid
  have hstep := h m.pushScope (by simpa [Machine.pushScope] using Nat.lt_succ_of_lt hid)
  have hpop : (step m.pushScope).2.popScope =
      { (step m.pushScope).2 with environment := m.environment } := by
    have he : (step m.pushScope).2.environment = m.environment.push m.store.fresh :=
      hstep.environment
    simp only [Machine.popScope, he, Environment.pop?_push, Option.getD_some]
  have hinside : Machine.Gains id names
      { ({ m with store := m.store.addScope } : Machine) with
        environment := m.environment.push m.store.fresh } (step m.pushScope).2 := hstep
  change m.Gains id _ (step m.pushScope).2.popScope
  rw [hpop]
  exact (Machine.Gains.addScope m).trans (hinside.outside hne)

/-- What is enclosed has a new innermost scope. -/
theorem bind_enclose {e : Environment} {f : Environment → Run α}
    (h : ∀ inside, inside.innermost ≠ id → Declares id names (f inside)) :
    Declares id names (enclose e >>= f) := by
  intro m hid
  have hinside : (e.push m.store.fresh).innermost ≠ id := Nat.ne_of_gt hid
  have hrest := h _ hinside { m with store := m.store.addScope }
    (by simpa using Nat.lt_succ_of_lt hid)
  exact (Machine.Gains.addScope m).trans hrest

end Declares

/-- What all six functions of the evaluator declare in a scope that is there already, given so many
frames. -/
structure AllDeclare (id : ScopeId) (s : Settings) (frames : Nat) : Prop where
  evaluate : ∀ n, DeclaresNothing id (evaluate s frames n)
  evaluateAll : ∀ ns, DeclaresNothing id (evaluateAll s frames ns)
  apply : ∀ f vs paren, DeclaresNothing id (apply s frames f vs paren)
  invoke : ∀ closure vs, DeclaresNothing id (invoke s frames closure vs)
  executeAll : ∀ ns : List Node,
    Declares id (· ∈ ns.flatMap Node.declared) (executeAll s frames ns)
  execute : ∀ n : Node, Declares id (· ∈ n.declared) (execute s frames n)

namespace AllDeclare

theorem zero (id : ScopeId) (s : Settings) : AllDeclare id s 0 where
  evaluate _ := .throw _
  evaluateAll _ := .throw _
  apply _ _ _ := .throw _
  invoke _ _ := .throw _
  executeAll _ := .throw _
  execute _ := .throw _

variable {s : Settings} {frames : Nat}

theorem valueOf? (ih : AllDeclare id s frames) (n : Node) :
    DeclaresNothing id (valueOf? s frames n) := by
  cases n with
  | missing => exact .pure _
  | _ => exact ih.evaluate _

theorem branchOf? (ih : AllDeclare id s frames) (n : Node) :
    Declares id (· ∈ n.declared) (branchOf? s frames n) := by
  cases n with
  | missing => exact .pure _
  | _ => exact ih.execute _

theorem evaluate_succ (ih : AllDeclare id s frames) (n : Node) :
    DeclaresNothing id (Run.evaluate s (frames + 1) n) := by
  have hquiet := quietLaw_gains id fun _ => False
  cases n with
  | literal t => exact .bind (.token t) fun t => .operated hquiet t _
  | grouping value => exact ih.evaluate value
  | «variable» name => exact .bind (.token name) fun t => .lookup hquiet t
  | assign name value =>
    refine .bind (ih.evaluate value) fun v => .bind (.token name) fun t => ?_
    exact .bind (.assign t v) fun _ => .pure v
  | unary operator right =>
    refine .bind (ih.evaluate right) fun v => .bind (.token operator) fun t => ?_
    exact .operated hquiet t _
  | logical left operator right =>
    refine .bind (ih.evaluate left) fun v => .bind (.token operator) fun t => ?_
    exact Keeps.ite (Declares.pure v) (ih.evaluate right)
  | binary left operator right =>
    refine .bind (ih.evaluate left) fun a => .bind (ih.evaluate right) fun b => ?_
    exact .bind (.token operator) fun t => .operated hquiet t _
  | call callee paren arguments =>
    refine .bind (ih.evaluate callee) fun f => .bind (ih.evaluateAll arguments) fun vs => ?_
    exact ih.apply f vs paren
  | _ => exact .throw _

theorem apply_succ (ih : AllDeclare id s frames) (f : Value) (vs : List Value) (paren : Node) :
    DeclaresNothing id (Run.apply s (frames + 1) f vs paren) := by
  cases f with
  | function closure =>
    rw [apply_function]
    refine Keeps.ite (Declares.throw _) (Declares.bind (.note s 3 _) fun _ => ?_)
    exact Keeps.caughtAt paren (ih.invoke closure vs)
  | builtin name =>
    rw [apply_builtin]
    refine Keeps.ite (Declares.throw _) (Declares.bind (.note s 3 _) fun _ => ?_)
    exact Keeps.readClock (quietLaw_gains id _)
  | _ => exact .throw _

theorem invoke_succ_succ (ih : AllDeclare id s frames) (closure : Closure) (vs : List Value) :
    DeclaresNothing id (Run.invoke s (frames + 2) closure vs) := by
  refine .bind_enclose fun inside hinside => ?_
  refine .bind (.inEnvironment hinside (.bindParams closure.params vs)) fun _ => ?_
  refine .bind (.blockOf (quietLaw_gains id _) closure.body) fun statements => ?_
  refine .bind (.inEnvironment hinside (ih.executeAll statements)) fun c => ?_
  cases c with
  | normal => exact .pure _
  | returned v => exact .pure v

theorem executeAll_succ (ih : AllDeclare id s frames) (ns : List Node) :
    Declares id (· ∈ ns.flatMap Node.declared) (Run.executeAll s (frames + 1) ns) := by
  unfold Run.executeAll
  induction ns with
  | nil => exact .pure _
  | cons n ns ihs =>
    refine .bind ((ih.execute n).mono fun name h => by simp [h]) fun c => ?_
    cases c with
    | normal => exact ihs.mono fun name h => by rw [List.flatMap_cons]; simp [h]
    | returned v => exact .pure _

theorem execute_succ (ih : AllDeclare id s frames) (n : Node) :
    Declares id (· ∈ n.declared) (Run.execute s (frames + 1) n) := by
  cases n with
  | expression value => exact .bind (.ofNothing (ih.evaluate value)) fun _ => .pure _
  | print value =>
    refine .bind (.ofNothing (ih.evaluate value)) fun v => .bind ?_ fun _ => .pure _
    exact Keeps.print (quietLaw_gains id _) _
  | var name initializer =>
    rw [execute_var]
    refine .bind (.ofNothing (ih.valueOf? initializer)) fun v => .bind_token fun t ht => ?_
    refine .bind (.define v fun n hn => ?_) fun _ => .bind (.note s 2 _) fun _ => .pure _
    simp [ht, Node.declared, hn]
  | block statements => exact .ofNothing (.inScope (ih.executeAll statements))
  | ifElse condition thenBranch elseBranch =>
    rw [execute_ifElse]
    refine .bind (.ofNothing (ih.evaluate condition)) fun v => .bind (.note s 3 _) fun _ => ?_
    refine .ite ((ih.execute thenBranch).mono ?_) ((ih.branchOf? elseBranch).mono ?_)
    · intro name h
      simp [Node.declared, h]
    · intro name h
      simp [Node.declared, h]
  | whileDo condition body =>
    have hcondition : Declares id (· ∈ body.declared) (Run.evaluate s frames condition) :=
      .ofNothing (ih.evaluate condition)
    exact Keeps.loop (quietLaw_gains id _) hcondition (ih.execute body) s.turns
  | function name params body =>
    refine .bind (.get (quietLaw_gains id _)) fun m => .bind_token fun t ht => ?_
    refine .bind (.define _ fun n hn => ?_) fun _ => .bind (.note s 2 _) fun _ => .pure _
    simp [ht, Node.declared, hn]
  | ret keyword value =>
    rw [execute_ret]
    exact .bind (.ofNothing (ih.valueOf? value)) fun v => .pure _
  | _ => exact .throw _

/-- Invoking a function takes one more frame than the other steps, and is looked at apart. -/
theorem next {id : ScopeId} {s : Settings} {frames : Nat} (now : AllDeclare id s frames)
    (hinvoke : ∀ closure vs, DeclaresNothing id (Run.invoke s (frames + 1) closure vs)) :
    AllDeclare id s (frames + 1) where
  evaluate := evaluate_succ now
  evaluateAll := .collect (quietLaw_gains id _) now.evaluate #[]
  apply := apply_succ now
  invoke := hinvoke
  executeAll := executeAll_succ now
  execute := execute_succ now

/-- A call of the evaluator takes one frame or, to invoke a function, two; hence the two bundles. -/
theorem both (id : ScopeId) (s : Settings) (frames : Nat) :
    AllDeclare id s frames ∧ AllDeclare id s (frames + 1) := by
  induction frames with
  | zero => exact ⟨zero id s, (zero id s).next fun _ _ => .throw _⟩
  | succ frames ih =>
    obtain ⟨before, now⟩ := ih
    exact ⟨now, now.next (invoke_succ_succ before)⟩

end AllDeclare

theorem allDeclare (id : ScopeId) (s : Settings) (frames : Nat) : AllDeclare id s frames :=
  (AllDeclare.both id s frames).1

theorem map_snd (f : α → β) (step : Run α) (m : Machine) : ((f <$> step) m).2 = (step m).2 := by
  rw [map_eq_pure_bind, bind_apply]
  cases step m with
  | mk r m' => cases r <;> rfl

theorem declares_run (id : ScopeId) (s : Settings) (frames : Nat) (task : Task) :
    Declares id (· ∈ task.declared) (task.run s frames) := by
  have h := allDeclare id s frames
  cases task with
  | evaluate n =>
    intro m hid
    rw [Task.run, map_snd]
    exact (h.evaluate n).ofNothing m hid
  | evaluateAll ns => exact (h.evaluateAll ns).ofNothing
  | apply f vs paren =>
    intro m hid
    rw [Task.run, map_snd]
    exact (h.apply f vs paren).ofNothing m hid
  | invoke closure vs =>
    intro m hid
    rw [Task.run, map_snd]
    exact (h.invoke closure vs).ofNothing m hid
  | executeAll ns =>
    intro m hid
    rw [Task.run, map_snd]
    exact h.executeAll ns m hid
  | execute n =>
    intro m hid
    rw [Task.run, map_snd]
    exact h.execute n m hid

theorem declares_interpret (id : ScopeId) (s : Settings) (frames : Nat) (program : Program) :
    Declares id (· ∈ program.flatMap Node.declared) (interpret s frames program) := by
  have hall : Declares id (· ∈ program.flatMap Node.declared)
      (sequence (topLevel s frames) program) := by
    induction program with
    | nil => exact .pure _
    | cons n ns ih =>
      have hn : Declares id (· ∈ n.declared) (topLevel s frames n) :=
        Keeps.caughtAt _ ((allDeclare id s frames).execute n)
      refine .bind (hn.mono fun name h => by simp [h]) fun c => ?_
      cases c with
      | normal => exact ih.mono fun name h => by rw [List.flatMap_cons]; simp [h]
      | returned v => exact .pure _
  exact .bind (.note s 1 _) fun _ => .bind hall fun _ => .note s 1 _

theorem declares_source (id : ScopeId) (s : Settings) (frames : Nat) (text : String) :
    Declares id (Program.Declares frames text) (source s frames text) := by
  refine .bind (.note s 1 _) fun _ => ?_
  split
  · exact .pure _
  · rename_i hf
    refine .bind (.note s 1 _) fun _ => ?_
    split
    · exact .pure _
    · rename_i program h
      have hprogram : Program.ofSource frames text = .ok program := by
        rw [Program.ofSource, if_neg hf]
        exact h
      have hall := (declares_interpret id s frames program).mono fun name hn =>
        (⟨program, hprogram, hn⟩ : Program.Declares frames text name)
      exact .bind hall fun _ => .pure _

/-- No scope ever loses a name, whatever is run and however it ends. In a scope that is there already,
evaluating an expression or calling a value binds no new name. Executing a statement binds one only in
the innermost scope, and only one that the statement declares outside its blocks and function bodies.
Running a source text is as executing its statements. -/
theorem only_declarations_bind (s : Settings) (frames : Nat) (m : Machine) :
    (∀ id name, (m.store.scope id).binds name →
      (∀ task : Task, ((task.run s frames m).2.store.scope id).binds name) ∧
      (∀ text, ((m.run s frames text).2.store.scope id).binds name)) ∧
    (∀ id < m.store.fresh, ∀ name,
      (∀ n, ((evaluate s frames n m).2.store.scope id).binds name =
        (m.store.scope id).binds name) ∧
      (∀ f vs paren, ((apply s frames f vs paren m).2.store.scope id).binds name =
        (m.store.scope id).binds name) ∧
      (∀ n, ((execute s frames n m).2.store.scope id).binds name → ¬ (m.store.scope id).binds name →
        id = m.environment.innermost ∧ name ∈ n.declared) ∧
      (∀ text, ((m.run s frames text).2.store.scope id).binds name →
        ¬ (m.store.scope id).binds name →
        id = m.environment.innermost ∧ Program.Declares frames text name)) := by
  have hsame : ∀ {id : ScopeId} {α : Type} {step : Run α}, DeclaresNothing id step →
      id < m.store.fresh → ∀ name,
      ((step m).2.store.scope id).binds name = (m.store.scope id).binds name := by
    intro id α step h hid name
    have hgains := h m hid
    rw [Bool.eq_iff_iff]
    refine ⟨fun hb => ?_, hgains.kept name⟩
    rcases hgains.gained name hb with hb | ⟨-, hnone⟩
    · exact hb
    · exact hnone.elim
  refine ⟨fun id name h => ⟨fun task => ?_, fun text => ?_⟩, fun id hid name => ?_⟩
  · exact (declares_run id s frames task m (Store.lt_of_binds h)).kept name h
  · rw [Machine.run_snd]
    exact (declares_source id s frames text m (Store.lt_of_binds h)).kept name h
  · have hall := allDeclare id s frames
    refine ⟨fun n => hsame (hall.evaluate n) hid name,
      fun f vs paren => hsame (hall.apply f vs paren) hid name, fun n hb hn => ?_, fun text hb hn => ?_⟩
    · exact ((hall.execute n m hid).gained name hb).resolve_left hn
    · rw [Machine.run_snd] at hb
      exact ((declares_source id s frames text m hid).gained name hb).resolve_left hn

/-- A branch that declares a variable, beside a block that would declare another one. -/
def branchedDeclaration : Node :=
  let word (kind : Kind) (text : String) : Node := .token ⟨kind, .text text, .text text, 1⟩
  .ifElse (.literal (word .trueWord "true")) (.var (word .identifier "a") .missing)
    (.block [.var (word .identifier "b") .missing])

theorem only_declarations_bind_branch :
    let m := Machine.fresh (Clock.steady 0)
    let after := (execute ⟨0, 1⟩ 3 branchedDeclaration m).2
    (0 < m.store.fresh ∧ (after.store.scope 0).binds (.word "a") ∧
      ¬ (m.store.scope 0).binds (.word "a")) ∧
    0 = m.environment.innermost ∧ .word "a" ∈ branchedDeclaration.declared ∧
    (after.store.scope 0).binds (.word Clock.builtinName) := by
  intro m after
  have hid : 0 < m.store.fresh := by decide
  have hbound : (after.store.scope 0).binds (.word "a") := rfl
  have hbefore : ¬ (m.store.scope 0).binds (.word "a") := by decide
  have hclock : (m.store.scope 0).binds (.word Clock.builtinName) := rfl
  obtain ⟨hkept, hgained⟩ := only_declarations_bind ⟨0, 1⟩ 3 m
  obtain ⟨-, -, hexecute, -⟩ := hgained 0 hid (.word "a")
  obtain ⟨hinnermost, hdeclared⟩ := hexecute branchedDeclaration hbound hbefore
  have hstays := (hkept 0 _ hclock).1 (.execute branchedDeclaration)
  rw [Task.run, map_snd] at hstays
  exact ⟨⟨hid, hbound, hbefore⟩, hinnermost, hdeclared, hstays⟩

end Run

end Lox
