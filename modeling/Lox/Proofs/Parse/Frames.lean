import Lox.Proofs.Parse.Reports

/-!
Parses with more frames. Main statement: unless a parse reports that something is nested too deep, it gives
the same statements and the same diagnostics with more frames.
-/

set_option autoImplicit false

namespace Lox

namespace Parse

variable {α β : Type} {source : Source}

/-- The second step does what the first one does, or the first one runs out of frames. -/
def Extends (x y : Parse α) : Prop := ∀ p, y p = x p ∨ (x p).1 = .error .exhausted

namespace Extends

theorem refl (x : Parse α) : Extends x x := fun _ => .inl rfl

theorem exhausted (y : Parse α) : Extends (throw .exhausted) y := fun _ => .inr rfl

theorem bind {x y : Parse α} {f g : α → Parse β} (h : Extends x y)
    (hf : ∀ a, Extends (f a) (g a)) : Extends (x >>= f) (y >>= g) := by
  intro p
  rw [bind_apply, bind_apply]
  cases hx : x p with
  | mk r q =>
    rcases h p with he | he
    · rw [he, hx]
      cases r with
      | ok a => exact hf a q
      | error e => exact .inl rfl
    · rw [hx] at he
      obtain rfl : r = .error .exhausted := he
      exact .inr rfl

theorem map {x y : Parse α} (f : α → β) (h : Extends x y) : Extends (f <$> x) (f <$> y) := by
  rw [map_eq_pure_bind, map_eq_pure_bind]
  exact bind h fun a => refl _

theorem ite {c : Prop} [Decidable c] {x x' y y' : Parse α} (hx : Extends x x')
    (hy : Extends y y') : Extends (if c then x else y) (if c then x' else y') := by
  split
  · exact hx
  · exact hy

theorem inFunction {x y : Parse α} (h : Extends x y) : Extends (inFunction x) (inFunction y) := by
  intro p
  unfold Parse.inFunction
  rcases h { p with functionDepth := p.functionDepth + 1 } with he | he
  · exact .inl (by rw [he])
  · exact .inr he

theorem recover {x y : Parse α} (h : Extends x y) : Extends (recover x) (recover y) := by
  intro p
  unfold Parse.recover
  rcases h p with he | he
  · exact .inl (by rw [he])
  · cases hx : x p with
    | mk r q =>
      rw [hx] at he
      obtain rfl : r = .error .exhausted := he
      exact .inr rfl

theorem extend {step step' : Node → Parse (Option Node)} (h : ∀ n, Extends (step n) (step' n))
    (turns : Nat) (n : Node) : Extends (extend step turns n) (extend step' turns n) := by
  induction turns generalizing n with
  | zero => exact refl _
  | succ turns ih =>
    refine bind (h n) fun o => ?_
    cases o with
    | none => exact refl _
    | some n => exact ih n

theorem separated {item item' : Parse Node} (h : Extends item item') (excess : Complaint)
    (turns : Nat) (done : Array Node) : Extends (Parse.separated source excess item turns done)
      (Parse.separated source excess item' turns done) := by
  induction turns generalizing done with
  | zero => exact refl _
  | succ turns ih =>
    simp only [Parse.separated]
    refine ite (bind (refl _) fun t => bind (refl _) fun _ => ?_) ?_
    all_goals
      refine bind h fun n => bind (refl _) fun o => ?_
      cases o with
      | none => exact refl _
      | some _ => exact ih (done.push n)

theorem untilBrace {item item' : Parse (Option Node)} (h : Extends item item') (turns : Nat)
    (done : Array Node) :
    Extends (untilBrace source item turns done) (untilBrace source item' turns done) := by
  induction turns generalizing done with
  | zero => exact refl _
  | succ turns ih =>
    refine bind (refl _) fun _ => bind (refl _) fun _ => ite (refl _) (bind h fun o => ?_)
    cases o with
    | none => exact ih done
    | some n => exact ih (done.push n)

end Extends

/-- The rules of expressions, given so many frames and so many more. -/
structure ExpressionsExtend (source : Source) (extra frames : Nat) : Prop where
  expression : Extends (expression source frames) (expression source (extra + frames))
  assignment : Extends (assignment source frames) (assignment source (extra + frames))
  operand : ∀ levels, Extends (operand source frames levels) (operand source (extra + frames) levels)
  call : Extends (call source frames) (call source (extra + frames))
  finishCall : ∀ n, Extends (finishCall source frames n) (finishCall source (extra + frames) n)
  primary : Extends (primary source frames) (primary source (extra + frames))

namespace ExpressionsExtend

variable {extra frames : Nat}

theorem assignment_succ (ih : ExpressionsExtend source extra frames) :
    Extends (Parse.assignment source (frames + 1)) (Parse.assignment source (extra + (frames + 1))) := by
  refine .bind (ih.operand Level.all) fun target => .bind (.refl _) fun o => ?_
  cases o with
  | none => exact .refl _
  | some equals => exact .bind ih.assignment fun value => .refl _

theorem operand_succ (ih : ExpressionsExtend source extra frames) (levels : List Level) :
    Extends (Parse.operand source (frames + 1) levels)
      (Parse.operand source (extra + (frames + 1)) levels) := by
  cases levels with
  | nil =>
    refine .bind (.refl _) fun o => ?_
    cases o with
    | none => exact ih.call
    | some operator => exact .bind (ih.operand []) fun right => .refl _
  | cons level tighter =>
    refine .bind (ih.operand tighter) fun left => .extend (fun left => ?_) source.turns left
    refine .bind (.refl _) fun o => ?_
    cases o with
    | none => exact .refl _
    | some operator => exact .bind (ih.operand tighter) fun right => .refl _

theorem call_succ (ih : ExpressionsExtend source extra frames) :
    Extends (Parse.call source (frames + 1)) (Parse.call source (extra + (frames + 1))) := by
  refine .bind ih.primary fun callee => .extend (fun callee => ?_) source.turns callee
  refine .bind (.refl _) fun o => ?_
  cases o with
  | none => exact .refl _
  | some _ => exact .bind (ih.finishCall callee) fun n => .refl _

theorem finishCall_succ (ih : ExpressionsExtend source extra frames) (callee : Node) :
    Extends (Parse.finishCall source (frames + 1) callee)
      (Parse.finishCall source (extra + (frames + 1)) callee) := by
  simp only [Parse.finishCall]
  refine .bind (.refl _) fun _ => .ite (.refl _) ?_
  exact .bind (.separated ih.expression _ _ _) fun _ => .refl _

theorem primary_succ (ih : ExpressionsExtend source extra frames) :
    Extends (Parse.primary source (frames + 1)) (Parse.primary source (extra + (frames + 1))) := by
  refine .bind (.refl _) fun t => .ite (.refl _) (.ite (.refl _) (.ite ?_ (.refl _)))
  exact .bind (.refl _) fun _ => .bind ih.expression fun value => .refl _

end ExpressionsExtend

theorem expressionsExtend (source : Source) (extra frames : Nat) :
    ExpressionsExtend source extra frames := by
  induction frames with
  | zero => constructor <;> intros <;> exact .exhausted _
  | succ frames ih =>
    exact ⟨ih.assignment, ih.assignment_succ, ih.operand_succ, ih.call_succ, ih.finishCall_succ,
      ih.primary_succ⟩

section Clauses

variable (source) (extra frames : Nat)

theorem varDeclaration_extends :
    Extends (varDeclaration source frames) (varDeclaration source (extra + frames)) := by
  have ih := (expressionsExtend source extra frames).expression
  refine .bind (.refl _) fun name => .bind (.refl _) fun o => ?_
  cases o with
  | none => exact .refl _
  | some _ => exact .bind ih fun n => .refl _

theorem expressionStatement_extends :
    Extends (expressionStatement source frames) (expressionStatement source (extra + frames)) :=
  .bind (expressionsExtend source extra frames).expression fun _ => .refl _

theorem printStatement_extends :
    Extends (printStatement source frames) (printStatement source (extra + frames)) :=
  .bind (expressionsExtend source extra frames).expression fun _ => .refl _

theorem returnStatement_extends (keyword : Token) :
    Extends (returnStatement source frames keyword)
      (returnStatement source (extra + frames) keyword) := by
  have ih := (expressionsExtend source extra frames).expression
  simp only [returnStatement]
  refine .bind (.refl _) fun p => .ite (.bind (.refl _) fun _ => ?_) ?_
  all_goals exact .bind (.refl _) fun _ => .ite (.refl _) (.bind ih fun n => .refl _)

theorem forInitializer_extends :
    Extends (forInitializer source frames) (forInitializer source (extra + frames)) := by
  refine .bind (.refl _) fun o => .ite (.refl _) (.bind (.refl _) fun o => .ite ?_ ?_)
  · exact .bind (varDeclaration_extends source extra frames) fun n => .refl _
  · exact .bind (expressionStatement_extends source extra frames) fun n => .refl _

theorem forClause_extends (closing : Kind) (c : Complaint) :
    Extends (forClause source frames closing c) (forClause source (extra + frames) closing c) := by
  have ih := (expressionsExtend source extra frames).expression
  simp only [forClause]
  exact .bind (.refl _) fun _ => .ite (.refl _) (.bind (.map _ ih) fun n => .refl _)

end Clauses

/-- The rules of statements, given so many frames and so many more. -/
structure StatementsExtend (source : Source) (extra frames : Nat) : Prop where
  declaration : Extends (declaration source frames) (declaration source (extra + frames))
  functionDeclaration :
    Extends (functionDeclaration source frames) (functionDeclaration source (extra + frames))
  block : Extends (block source frames) (block source (extra + frames))
  statement : Extends (statement source frames) (statement source (extra + frames))
  ifStatement : Extends (ifStatement source frames) (ifStatement source (extra + frames))
  whileStatement : Extends (whileStatement source frames) (whileStatement source (extra + frames))
  forStatement : ∀ keyword,
    Extends (forStatement source frames keyword) (forStatement source (extra + frames) keyword)

namespace StatementsExtend

variable {extra frames : Nat} (ih : StatementsExtend source extra frames)
include ih

theorem declaration_succ : Extends (Parse.declaration source (frames + 1))
    (Parse.declaration source (extra + (frames + 1))) := by
  refine .recover (.bind (.refl _) fun o => .ite (varDeclaration_extends source extra frames) ?_)
  exact .bind (.refl _) fun o => .ite ih.functionDeclaration ih.statement

theorem functionDeclaration_succ : Extends (Parse.functionDeclaration source (frames + 1))
    (Parse.functionDeclaration source (extra + (frames + 1))) := by
  refine .bind (.refl _) fun name => .bind (.refl _) fun _ => .bind (.refl _) fun params => ?_
  refine .bind (.refl _) fun _ => .bind (.refl _) fun _ => ?_
  exact .bind (.inFunction ih.block) fun body => .refl _

theorem block_succ : Extends (Parse.block source (frames + 1))
    (Parse.block source (extra + (frames + 1))) :=
  .bind (.untilBrace ih.declaration _ _) fun _ => .refl _

theorem ifStatement_succ : Extends (Parse.ifStatement source (frames + 1))
    (Parse.ifStatement source (extra + (frames + 1))) := by
  have he := (expressionsExtend source extra frames).expression
  refine .bind (.refl _) fun _ => .bind he fun c => .bind (.refl _) fun _ => ?_
  refine .bind ih.statement fun n => .bind (.refl _) fun o => ?_
  cases o with
  | none => exact .refl _
  | some _ => exact .bind ih.statement fun e => .refl _

theorem whileStatement_succ : Extends (Parse.whileStatement source (frames + 1))
    (Parse.whileStatement source (extra + (frames + 1))) := by
  have he := (expressionsExtend source extra frames).expression
  refine .bind (.refl _) fun _ => .bind he fun c => .bind (.refl _) fun _ => ?_
  exact .bind ih.statement fun n => .refl _

theorem forStatement_succ (keyword : Token) : Extends (Parse.forStatement source (frames + 1) keyword)
    (Parse.forStatement source (extra + (frames + 1)) keyword) := by
  refine .bind (.refl _) fun _ => .bind (forInitializer_extends source extra frames) fun before => ?_
  refine .bind (forClause_extends source extra frames _ _) fun c => ?_
  refine .bind (forClause_extends source extra frames _ _) fun after => ?_
  exact .bind ih.statement fun n => .refl _

theorem statement_succ : Extends (Parse.statement source (frames + 1))
    (Parse.statement source (extra + (frames + 1))) := by
  simp only [Parse.statement]
  refine .bind (.refl _) fun t => ?_
  generalize t.kind = kind
  split
  · exact .bind (.refl _) fun _ => printStatement_extends source extra frames
  · exact .bind (.refl _) fun _ => .map _ ih.block
  · exact .bind (.refl _) fun _ => ih.ifStatement
  · exact .bind (.refl _) fun _ => ih.whileStatement
  · exact .bind (.refl _) fun _ => ih.forStatement t
  · exact .bind (.refl _) fun _ => returnStatement_extends source extra frames t
  · exact expressionStatement_extends source extra frames

end StatementsExtend

theorem statementsExtend (source : Source) (extra frames : Nat) :
    StatementsExtend source extra frames := by
  induction frames with
  | zero => constructor <;> intros <;> exact .exhausted _
  | succ frames ih =>
    exact ⟨ih.declaration_succ, ih.functionDeclaration_succ, ih.block_succ, ih.statement_succ,
      ih.ifStatement_succ, ih.whileStatement_succ, ih.forStatement_succ⟩

/-- With more frames all declarations are parsed as they were, or one was reported as nested too deep. -/
theorem programOnto_extends (source : Source) (extra frames turns : Nat) (done : Array Node)
    (p : Parser) :
    programOnto source (extra + frames) turns done p = programOnto source frames turns done p ∨
      ∃ d ∈ (programOnto source frames turns done p).2.diagnostics, d.complaint = .tooMuchNesting := by
  induction turns generalizing done p with
  | zero => exact .inl rfl
  | succ turns ih =>
    cases hq : p.pending with
    | nil => exact .inl (by rw [programOnto, programOnto, hq])
    | cons first rest =>
      rw [programOnto_succ hq, programOnto_succ hq]
      cases hs : declaration source frames p with
      | mk r q =>
        rcases (statementsExtend source extra frames).declaration p with he | he
        · rw [he, hs]
          rcases r with (_ | _) | _ | n
          · exact ih done q
          · exact ih done _
          · exact ih done q
          · exact ih (done.push n) q
        · rw [hs] at he
          obtain rfl : r = .error .exhausted := he
          refine .inr ⟨.at first .tooMuchNesting, ?_, rfl⟩
          have hall := @programOnto_reports (fun _ => True) source trivial frames turns done
            (q.report (.at first .tooMuchNesting)).synchronize fun _ _ => trivial
          refine hall.toAdvances.mem_diagnostics ?_
          exact (Advances.synchronize _).mem_diagnostics Array.mem_push_self

end Parse

/-- A parse with more frames gives the same, or the one with less reports that something is nested too
deep. -/
theorem parse_extends {frames more : Nat} (h : frames ≤ more) (tokens : List Token) :
    parse more tokens = parse frames tokens ∨
      ∃ d ∈ (parse frames tokens).diagnostics, d.complaint = .tooMuchNesting := by
  obtain ⟨extra, rfl⟩ := Nat.exists_eq_add_of_le' h
  rcases Parse.programOnto_extends (.ofTokens tokens) extra frames (tokens.length + 1) #[]
    (.ofTokens tokens) with he | ⟨d, hd, hc⟩
  · exact .inl (congrArg (fun r => (⟨r.1.toList, r.2.diagnostics.toList⟩ : Parsed)) he)
  · exact .inr ⟨d, Array.mem_toList_iff.2 hd, hc⟩

end Lox
