import Lox.Proofs.Parse.Frames
import Lox.Proofs.Run.Programs
import Lox.Proofs.Run.Scopes

/-!
Runs with more frames. Main statement: whatever ends without an overflow ends in the same way, and on the
same machine, with more frames; what ends in an overflow has printed a part of what it prints with more.
-/

set_option autoImplicit false

namespace Lox

/-- The stops for want of frames: not caught yet, or caught at a place. -/
inductive Stop.IsOverflow : Stop → Prop where
  | exhausted : IsOverflow .exhausted
  | failed (line : Int) : IsOverflow (.failed ⟨line, .stackOverflow⟩)
  | noPlace : IsOverflow (.malformed (.noPlace .stackOverflow))

/-- A machine that has printed something more, or nothing. -/
def Machine.Prints (m m' : Machine) : Prop := ∃ printed, m'.output = m.output ++ printed

theorem Machine.Prints.trans {a b c : Machine} : Prints a b → Prints b c → Prints a c := by
  rintro ⟨x, hx⟩ ⟨y, hy⟩
  exact ⟨x ++ y, by rw [hy, hx, String.append_assoc]⟩

theorem Machine.Prints.refl (m : Machine) : Prints m m := ⟨"", String.append_empty.symm⟩

namespace Run

open Machine (Prints)

variable {α β : Type} {s : Settings}

theorem law_prints : Law Prints where
  refl := .refl
  trans := .trans
  noted m _ := .refl m
  printed _ line := ⟨line ++ "\n", String.append_assoc ..⟩
  ticked m _ := .refl m
  bound m _ _ _ := .refl m
  grown m := .refl m
  inScope h := h
  inEnvironment _ h := h

theorem isOverflow_faultAt (place : Node) : (faultAt .stackOverflow place).IsOverflow := by
  cases place with
  | token t => exact .failed t.line
  | _ => exact .noPlace

theorem caughtAt_snd (place : Node) (x : Run α) (m : Machine) :
    (caughtAt place x m).2 = (x m).2 := by
  unfold caughtAt
  split
  next h => rw [h]
  next => rfl

/-- How a step ends, and how it ends with more frames. -/
inductive Follows (x y : Except Stop α × Machine) : Prop where
  | same (h : y = x)
  | overflow {stop : Stop} (hx : x.1 = .error stop) (hs : stop.IsOverflow) (hp : Prints x.2 y.2)

/-- The second step is the first one with more frames. -/
structure Extends (x y : Run α) : Prop where
  prints : Keeps Prints y
  follows : ∀ m, Follows (x m) (y m)

namespace Extends

theorem same_or_overflow {x y : Run α} (h : Extends x y) (m : Machine) :
    (y m = x m ∨ ∃ stop m', x m = (.error stop, m') ∧ stop.IsOverflow) ∧ Prints (x m).2 (y m).2 := by
  cases h.follows m with
  | same he => exact ⟨.inl he, he ▸ .refl _⟩
  | overflow hx hs hp => exact ⟨.inr ⟨_, _, Prod.ext hx rfl, hs⟩, hp⟩

/-- What does not overflow is the same with more frames. -/
theorem eq_of_not_overflow {x y : Run α} (h : Extends x y) {m : Machine}
    (hx : ∀ stop, stop.IsOverflow → (x m).1 ≠ .error stop) : y m = x m := by
  refine (h.same_or_overflow m).1.resolve_right ?_
  rintro ⟨stop, m', he, hs⟩
  exact hx stop hs (by rw [he])

theorem refl {x : Run α} (h : Keeps Prints x) : Extends x x := ⟨h, fun _ => .same rfl⟩

theorem pure (a : α) : Extends (pure a : Run α) (pure a) := refl (.pure law_prints a)

theorem throw (stop : Stop) : Extends (throw stop : Run α) (throw stop) :=
  refl (.throw law_prints stop)

/-- Without any frame there is an overflow at once. -/
theorem exhausted {y : Run α} (h : Keeps Prints y) : Extends (MonadExcept.throw .exhausted) y :=
  ⟨h, fun m => .overflow rfl .exhausted (h m)⟩

theorem bind {x y : Run α} {f g : α → Run β} (h : Extends x y) (hf : ∀ a, Extends (f a) (g a)) :
    Extends (x >>= f) (y >>= g) := by
  refine ⟨.bind law_prints h.prints fun a => (hf a).prints, fun m => ?_⟩
  have hm := h.follows m
  rw [bind_apply, bind_apply]
  cases hx : x m with
  | mk r m₁ =>
    cases hy : y m with
    | mk r' m₂ =>
      rw [hx, hy] at hm
      cases hm with
      | same he =>
        obtain ⟨rfl, rfl⟩ := Prod.mk.inj he
        cases r' with
        | ok a => exact (hf a).follows m₂
        | error stop => exact .same rfl
      | overflow he hs hp =>
        -- With more frames the first step may end, and then the second one prints on.
        obtain rfl : r = .error _ := he
        cases r' with
        | error stop => exact .overflow rfl hs hp
        | ok a => exact .overflow rfl hs (hp.trans ((hf a).prints m₂))

theorem ite {c : Prop} [Decidable c] {x x' y y' : Run α} (hx : Extends x x') (hy : Extends y y') :
    Extends (if c then x else y) (if c then x' else y') := by
  split
  · exact hx
  · exact hy

theorem inScope {x y : Run α} (h : Extends x y) : Extends (inScope x) (inScope y) := by
  refine ⟨.inScope law_prints h.prints, fun m => ?_⟩
  unfold Run.inScope
  cases h.follows m.pushScope with
  | same he => exact .same (by rw [he])
  | overflow he hs hp => exact .overflow he hs hp

theorem inEnvironment (e : Environment) {x y : Run α} (h : Extends x y) :
    Extends (inEnvironment e x) (inEnvironment e y) := by
  refine ⟨.inEnvironment law_prints e h.prints, fun m => ?_⟩
  unfold Run.inEnvironment
  cases h.follows { m with environment := e } with
  | same he => exact .same (by rw [he])
  | overflow he hs hp => exact .overflow he hs hp

/-- An overflow that is caught stays one. -/
theorem caughtAt (place : Node) {x y : Run α} (h : Extends x y) :
    Extends (caughtAt place x) (caughtAt place y) := by
  have hprints : Keeps Prints (Run.caughtAt place y) := .caughtAt place h.prints
  refine ⟨hprints, fun m => ?_⟩
  cases h.follows m with
  | same he =>
    refine .same ?_
    unfold Run.caughtAt
    rw [he]
  | overflow he hs hp =>
    have hstored : (Run.caughtAt place y m).2 = (y m).2 := caughtAt_snd place y m
    have hm : Prints (x m).2 (Run.caughtAt place y m).2 := hstored ▸ hp
    cases hx : x m with
    | mk r m₁ =>
      rw [hx] at he hm
      obtain rfl : r = .error _ := he
      unfold Run.caughtAt at hm ⊢
      rw [hx]
      cases hs with
      | exhausted => exact .overflow rfl (isOverflow_faultAt place) hm
      | failed line => exact .overflow rfl (.failed line) hm
      | noPlace => exact .overflow rfl .noPlace hm

theorem collect {value value' : Node → Run Value} (h : ∀ n, Extends (value n) (value' n))
    (done : Array Value) (ns : List Node) :
    Extends (collect value done ns) (collect value' done ns) := by
  induction ns generalizing done with
  | nil => exact pure _
  | cons n ns ih => exact bind (h n) fun v => ih (done.push v)

theorem sequence {statement statement' : Node → Run Completion}
    (h : ∀ n, Extends (statement n) (statement' n)) (ns : List Node) :
    Extends (sequence statement ns) (sequence statement' ns) := by
  induction ns with
  | nil => exact pure _
  | cons n ns ih =>
    refine bind (h n) fun c => ?_
    cases c with
    | normal => exact ih
    | returned v => exact pure _

theorem loop {condition condition' : Run Value} {body body' : Run Completion}
    (hc : Extends condition condition') (hb : Extends body body') (turns : Nat) :
    Extends (loop condition body turns) (loop condition' body' turns) := by
  induction turns with
  | zero => exact throw _
  | succ turns ih =>
    refine bind hc fun v => ite (bind hb fun c => ?_) (pure _)
    cases c with
    | normal => exact ih
    | returned v => exact pure _

end Extends

/-- All six functions of the evaluator, given so many frames and so many more. -/
structure AllExtend (s : Settings) (extra frames : Nat) : Prop where
  evaluate : ∀ n, Extends (evaluate s frames n) (evaluate s (extra + frames) n)
  evaluateAll : ∀ ns, Extends (evaluateAll s frames ns) (evaluateAll s (extra + frames) ns)
  apply : ∀ f vs paren, Extends (apply s frames f vs paren) (apply s (extra + frames) f vs paren)
  invoke : ∀ closure vs, Extends (invoke s frames closure vs) (invoke s (extra + frames) closure vs)
  executeAll : ∀ ns, Extends (executeAll s frames ns) (executeAll s (extra + frames) ns)
  execute : ∀ n, Extends (execute s frames n) (execute s (extra + frames) n)

namespace AllExtend

variable {extra frames : Nat}

theorem zero (s : Settings) (extra : Nat) : AllExtend s extra 0 where
  evaluate n := .exhausted ((allKeep law_prints s extra).evaluate n)
  evaluateAll ns := .exhausted ((allKeep law_prints s extra).evaluateAll ns)
  apply f vs paren := .exhausted ((allKeep law_prints s extra).apply f vs paren)
  invoke closure vs := .exhausted ((allKeep law_prints s extra).invoke closure vs)
  executeAll ns := .exhausted ((allKeep law_prints s extra).executeAll ns)
  execute n := .exhausted ((allKeep law_prints s extra).execute n)

theorem valueOf? (ih : AllExtend s extra frames) (n : Node) :
    Extends (valueOf? s frames n) (valueOf? s (extra + frames) n) := by
  cases n with
  | missing => exact .pure _
  | _ => exact ih.evaluate _

theorem branchOf? (ih : AllExtend s extra frames) (n : Node) :
    Extends (branchOf? s frames n) (branchOf? s (extra + frames) n) := by
  cases n with
  | missing => exact .pure _
  | _ => exact ih.execute _

theorem evaluate_succ (ih : AllExtend s extra frames) (n : Node) :
    Extends (Run.evaluate s (frames + 1) n) (Run.evaluate s (extra + (frames + 1)) n) := by
  have htoken : ∀ n, Extends (token n) (token n) := fun n => .refl (.token law_prints n)
  cases n with
  | literal t => exact .bind (htoken t) fun t => .refl (.operated law_prints t _)
  | grouping value => exact ih.evaluate value
  | «variable» name => exact .bind (htoken name) fun t => .refl (.lookup law_prints t)
  | assign name value =>
    refine .bind (ih.evaluate value) fun v => .bind (htoken name) fun t => ?_
    exact .bind (.refl (.assign law_prints t v)) fun _ => .pure v
  | unary operator right =>
    refine .bind (ih.evaluate right) fun v => .bind (htoken operator) fun t => ?_
    exact .refl (.operated law_prints t _)
  | logical left operator right =>
    refine .bind (ih.evaluate left) fun v => .bind (htoken operator) fun t => ?_
    exact .ite (.pure v) (ih.evaluate right)
  | binary left operator right =>
    refine .bind (ih.evaluate left) fun a => .bind (ih.evaluate right) fun b => ?_
    exact .bind (htoken operator) fun t => .refl (.operated law_prints t _)
  | call callee paren arguments =>
    refine .bind (ih.evaluate callee) fun f => .bind (ih.evaluateAll arguments) fun vs => ?_
    exact ih.apply f vs paren
  | _ => exact .throw _

theorem apply_succ (ih : AllExtend s extra frames) (f : Value) (vs : List Value) (paren : Node) :
    Extends (Run.apply s (frames + 1) f vs paren)
      (Run.apply s (extra + (frames + 1)) f vs paren) := by
  cases f with
  | function closure =>
    rw [← Nat.add_assoc, apply_function, apply_function]
    exact .ite (.throw _) (.bind (.refl (.note law_prints s 3 _)) fun _ =>
      .caughtAt paren (ih.invoke closure vs))
  | _ =>
    have hk := (allKeep law_prints s (frames + 1)).apply
    exact .refl (hk _ vs paren)

theorem invoke_succ_succ (ih : AllExtend s extra frames) (closure : Closure) (vs : List Value) :
    Extends (Run.invoke s (frames + 2) closure vs)
      (Run.invoke s (extra + (frames + 2)) closure vs) := by
  refine .bind (.refl (.enclose law_prints closure.environment)) fun inside => ?_
  refine .bind (.refl (.inEnvironment law_prints inside
    (.bindParams law_prints closure.params vs))) fun _ => ?_
  refine .bind (.refl (.blockOf law_prints closure.body)) fun statements => ?_
  refine .bind (.inEnvironment inside (ih.executeAll statements)) fun c => ?_
  cases c with
  | normal => exact .pure _
  | returned v => exact .pure v

theorem execute_succ (ih : AllExtend s extra frames) (n : Node) :
    Extends (Run.execute s (frames + 1) n) (Run.execute s (extra + (frames + 1)) n) := by
  cases n with
  | expression value => exact .bind (ih.evaluate value) fun _ => .pure _
  | print value =>
    exact .bind (ih.evaluate value) fun v => .bind (.refl (.print law_prints _)) fun _ => .pure _
  | var name initializer =>
    rw [← Nat.add_assoc, execute_var, execute_var]
    refine .bind (ih.valueOf? initializer) fun v => .bind (.refl (.token law_prints name)) fun t => ?_
    exact .bind (.refl (.define law_prints t v)) fun _ =>
      .bind (.refl (.note law_prints s 2 _)) fun _ => .pure _
  | block statements => exact .inScope (ih.executeAll statements)
  | ifElse condition thenBranch elseBranch =>
    rw [← Nat.add_assoc, execute_ifElse, execute_ifElse]
    refine .bind (ih.evaluate condition) fun v => .bind (.refl (.note law_prints s 3 _)) fun _ => ?_
    exact .ite (ih.execute thenBranch) (ih.branchOf? elseBranch)
  | whileDo condition body => exact .loop (ih.evaluate condition) (ih.execute body) s.turns
  | function name params body =>
    have hk := (allKeep law_prints s (frames + 1)).execute
    exact .refl (hk (.function name params body))
  | ret keyword value =>
    rw [← Nat.add_assoc, execute_ret, execute_ret]
    exact .bind (ih.valueOf? value) fun v => .pure _
  | _ => exact .throw _

/-- Invoking a function takes one more frame than the other steps, and is looked at apart. -/
theorem next {s : Settings} {extra frames : Nat} (now : AllExtend s extra frames)
    (hinvoke : ∀ closure vs, Extends (Run.invoke s (frames + 1) closure vs)
      (Run.invoke s (extra + (frames + 1)) closure vs)) :
    AllExtend s extra (frames + 1) where
  evaluate := evaluate_succ now
  evaluateAll := .collect now.evaluate #[]
  apply := apply_succ now
  invoke := hinvoke
  executeAll := .sequence now.execute
  execute := execute_succ now

/-- A call of the evaluator takes one frame or, to invoke a function, two; hence the two bundles. -/
theorem both (s : Settings) (extra frames : Nat) :
    AllExtend s extra frames ∧ AllExtend s extra (frames + 1) := by
  induction frames with
  | zero =>
    have hinvoke := (allKeep law_prints s (extra + 1)).invoke
    exact ⟨zero s extra, (zero s extra).next fun closure vs => .exhausted (hinvoke closure vs)⟩
  | succ frames ih =>
    obtain ⟨before, now⟩ := ih
    exact ⟨now, now.next (invoke_succ_succ before)⟩

end AllExtend

variable {frames more : Nat}

theorem extends_execute (h : frames ≤ more) (s : Settings) (n : Node) :
    Extends (execute s frames n) (execute s more n) := by
  obtain ⟨extra, rfl⟩ := Nat.exists_eq_add_of_le' h
  exact (AllExtend.both s extra frames).1.execute n

theorem extends_evaluate (h : frames ≤ more) (s : Settings) (n : Node) :
    Extends (evaluate s frames n) (evaluate s more n) := by
  obtain ⟨extra, rfl⟩ := Nat.exists_eq_add_of_le' h
  exact (AllExtend.both s extra frames).1.evaluate n

theorem extends_topLevel (h : frames ≤ more) (s : Settings) (n : Node) :
    Extends (topLevel s frames n) (topLevel s more n) :=
  .caughtAt _ (extends_execute h s n)

theorem extends_interpret (h : frames ≤ more) (s : Settings) (program : Program) :
    Extends (interpret s frames program) (interpret s more program) := by
  refine .bind (.refl (.note law_prints s 1 _)) fun _ => ?_
  refine .bind (.sequence (extends_topLevel h s) program) fun _ => ?_
  exact .refl (.note law_prints s 1 _)

/-- A text of which the parse is the same with more frames, if it is parsed at all. -/
theorem extends_source (h : frames ≤ more) (s : Settings) {text : String}
    (hp : ¬ (scan text).fatal = true →
      parse more (scan text).tokens = parse frames (scan text).tokens) :
    Extends (source s frames text) (source s more text) := by
  simp only [source]
  refine .bind (.refl (.note law_prints s 1 _)) fun _ => ?_
  by_cases hf : (scan text).fatal = true
  · rw [if_pos hf, if_pos hf]
    exact .pure _
  · rw [if_neg hf, if_neg hf, hp hf]
    refine .bind (.refl (.note law_prints s 1 _)) fun _ => ?_
    split
    · exact .pure _
    · exact .bind (extends_interpret h s _) fun _ => .pure _

end Run

/-- How a program ends that there were too few frames for, to run it or to parse it. -/
inductive Outcome.IsOverflow : Outcome → Prop where
  | stopped {stop : Stop} (h : stop.IsOverflow) : IsOverflow (.stopped stop)
  | rejected {r : Rejection} {d : Diagnostic} (hd : d ∈ r.diagnostics)
      (hc : d.complaint = .tooMuchNesting) : IsOverflow (.rejected r)

namespace Machine

variable {frames more : Nat}

theorem prints_run (s : Settings) (frames : Nat) (text : String) (m : Machine) :
    m.Prints (m.run s frames text).2 := by
  rw [run_snd]
  exact Run.keeps_source Run.law_prints s frames text m

theorem interpret_extends (h : frames ≤ more) (s : Settings) (program : Program) (m : Machine) :
    (m.interpret s more program = m.interpret s frames program ∨
        (m.interpret s frames program).1.IsOverflow) ∧
      (m.interpret s frames program).2.Prints (m.interpret s more program).2 := by
  rw [interpret_snd, interpret_snd]
  obtain ⟨he | ⟨stop, m', hx, hs⟩, hp⟩ :=
    (Run.extends_interpret h s program).same_or_overflow m
  · exact ⟨.inl (by rw [interpret, interpret, he]), hp⟩
  · refine ⟨.inr ?_, hp⟩
    rw [interpret, hx]
    exact .stopped hs

theorem run_of_extends {s : Settings} {text : String}
    (h : Run.Extends (Run.source s frames text) (Run.source s more text)) (m : Machine) :
    (m.run s more text = m.run s frames text ∨ (m.run s frames text).1.IsOverflow) ∧
      (m.run s frames text).2.Prints (m.run s more text).2 := by
  rw [run_snd, run_snd]
  obtain ⟨he | ⟨stop, m', hx, hs⟩, hp⟩ := h.same_or_overflow m
  · exact ⟨.inl (by rw [run, run, he]), hp⟩
  · refine ⟨.inr ?_, hp⟩
    rw [run, hx]
    exact .stopped hs

theorem run_extends (h : frames ≤ more) (s : Settings) (text : String) (m : Machine) :
    (m.run s more text = m.run s frames text ∨ (m.run s frames text).1.IsOverflow) ∧
      (m.run s frames text).2.Prints (m.run s more text).2 := by
  by_cases hf : (scan text).fatal = true
  · exact run_of_extends (Run.extends_source h s fun hn => absurd hf hn) m
  · rcases parse_extends h (scan text).tokens with he | ⟨d, hd, hc⟩
    · exact run_of_extends (Run.extends_source h s fun _ => he) m
    · obtain ⟨r, hr, hmem⟩ := Program.exists_ofSource_of_mem hf hd
      obtain ⟨trace, ht⟩ := run_of_error hr m
      have hprints := prints_run s more text m
      rw [ht]
      exact ⟨.inr (.rejected hmem hc), hprints⟩

end Machine

/-- The limit on frames only decides whether there is an overflow. Statements or a text that end without
one, on any machine, end in the same way and leave the same machine with more frames, and a token list of
which nothing is reported as nested too deep is parsed in the same way. In any case what was printed is
the beginning of what is printed with more frames. -/
theorem frames_only_decide_overflow {frames more : Nat} (h : frames ≤ more) :
    (∀ s program m,
      (¬ (Machine.interpret s frames program m).1.IsOverflow →
        Machine.interpret s more program m = Machine.interpret s frames program m) ∧
      (Machine.interpret s frames program m).2.Prints (Machine.interpret s more program m).2) ∧
    (∀ s text m,
      (¬ (Machine.run s frames text m).1.IsOverflow →
        Machine.run s more text m = Machine.run s frames text m) ∧
      (Machine.run s frames text m).2.Prints (Machine.run s more text m).2) ∧
    ∀ tokens, (∀ d ∈ (parse frames tokens).diagnostics, d.complaint ≠ .tooMuchNesting) →
      parse more tokens = parse frames tokens := by
  refine ⟨fun s program m => ?_, fun s text m => ?_, fun tokens hd => ?_⟩
  · obtain ⟨hr, hp⟩ := Machine.interpret_extends h s program m
    exact ⟨hr.resolve_right, hp⟩
  · obtain ⟨hr, hp⟩ := Machine.run_extends h s text m
    exact ⟨hr.resolve_right, hp⟩
  · refine (parse_extends h tokens).resolve_right ?_
    rintro ⟨d, hmem, hc⟩
    exact hd d hmem hc

/-- A program that prints and then stops for a name that nothing binds. -/
def unboundText : String := "print nil; print b;"

theorem frames_only_decide_overflow_unbound :
    let m := Machine.fresh (Clock.steady 0)
    40 ≤ 60 ∧ ¬ (m.run ⟨0, 1⟩ 40 unboundText).1.IsOverflow ∧
      m.run ⟨0, 1⟩ 60 unboundText = m.run ⟨0, 1⟩ 40 unboundText ∧
      parse 60 (scan unboundText).tokens = parse 40 (scan unboundText).tokens := by
  intro m
  obtain ⟨-, hrun, hparse⟩ := frames_only_decide_overflow (show 40 ≤ 60 by decide)
  have hstop : (m.run ⟨0, 1⟩ 40 unboundText).1 =
      .stopped (.failed ⟨1, .undefinedVariable (.text "b")⟩) := rfl
  have hends : ¬ (m.run ⟨0, 1⟩ 40 unboundText).1.IsOverflow := by
    rw [hstop]
    rintro ⟨⟨⟩⟩
  have hnone : (parse 40 (scan unboundText).tokens).diagnostics = [] := rfl
  refine ⟨by decide, hends, (hrun ⟨0, 1⟩ unboundText m).1 hends, hparse _ fun d hd => ?_⟩
  rw [hnone] at hd
  cases hd

end Lox
