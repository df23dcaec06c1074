import Lox.Proofs.Parse.Steps
import Lox.Proofs.Run.Bindings
import Lox.Proofs.Run.Returns

/-!
What a statement is parsed to. Main statement: it declares nothing outside its blocks, and a `for`
statement is rewritten from clauses of which the initializer is a declaration of a variable or an
expression and the body is again a statement.
-/

set_option autoImplicit false

namespace Lox

/-- What is written in a `for` statement. -/
structure ForClauses where
  initializer : Option Node
  condition : Option Node
  increment : Option Node
  body : Node

namespace ForClauses

/-- What the clauses are rewritten to. -/
def tree (c : ForClauses) (keyword : Token) : Node :=
  .forLoop keyword c.initializer c.condition c.increment c.body

structure WellFormed (c : ForClauses) : Prop where
  initializer : ∀ n ∈ c.initializer, n.NeverReturns
  body : c.body.declared = []

end ForClauses

namespace Parse

variable {α β : Type} {Q : α → Prop} {R : β → Prop} {source : Source} {frames : Nat}

/-- The clauses of a `for` statement, after its keyword. -/
def forClauses (source : Source) (frames : Nat) : Parse ForClauses := do
  let _ ← expect source .leftParen (.missing '(' .forWord)
  let initializer ← forInitializer source frames
  let condition ← forClause source frames .semicolon (.missing ';' .loopCondition)
  let increment ← forClause source frames .rightParen (.missing ')' .forClauses)
  let body ← statement source frames
  return { initializer, condition, increment, body }

theorem forStatement_eq (source : Source) (frames : Nat) (keyword : Token) :
    forStatement source (frames + 1) keyword = (·.tree keyword) <$> forClauses source frames := by
  simp only [forStatement, forClauses, map_eq_pure_bind, bind_assoc, pure_bind, ForClauses.tree]

theorem forStatement_ok {keyword : Token} {p q : Parser} {n : Node}
    (h : forStatement source (frames + 1) keyword p = (.ok n, q)) :
    ∃ c, forClauses source frames p = (.ok c, q) ∧ n = c.tree keyword := by
  rw [forStatement_eq, map_eq_pure_bind, bind_apply] at h
  cases hr : forClauses source frames p with
  | mk r p' =>
    rw [hr] at h
    cases r with
    | error e => cases h
    | ok c =>
      cases h
      exact ⟨c, rfl, rfl⟩

/-- What a step gives, wherever it begins. -/
def Gives (Q : α → Prop) (x : Parse α) : Prop := ∀ p a q, x p = (.ok a, q) → Q a

namespace Gives

theorem pure {a : α} (h : Q a) : Gives Q (pure a : Parse α) := by
  rintro p b q ⟨⟩
  exact h

theorem throw (e : Abort) : Gives Q (throw e : Parse α) := by
  rintro p a q ⟨⟩

theorem bind {x : Parse α} {f : α → Parse β} (hx : Gives Q x) (hf : ∀ a, Q a → Gives R (f a)) :
    Gives R (x >>= f) := by
  intro p b q h
  rw [bind_apply] at h
  cases hr : x p with
  | mk r p' =>
    rw [hr] at h
    cases r with
    | error e => cases h
    | ok a => exact hf a (hx p a p' hr) p' b q h

/-- What a sequence of steps gives is up to the last one. -/
theorem last {x : Parse α} {f : α → Parse β} (hf : ∀ a, Gives R (f a)) : Gives R (x >>= f) :=
  bind (Q := fun _ => True) (fun _ _ _ _ => trivial) fun a _ => hf a

theorem mono {x : Parse α} {Q' : α → Prop} (hx : Gives Q x) (h : ∀ a, Q a → Q' a) : Gives Q' x :=
  fun p a q hr => h a (hx p a q hr)

theorem map {x : Parse α} {f : α → β} (hx : Gives Q x) (hf : ∀ a, Q a → R (f a)) :
    Gives R (f <$> x) := by
  rw [map_eq_pure_bind]
  exact hx.bind fun a ha => pure (hf a ha)

theorem ite {c : Prop} [Decidable c] {x y : Parse α} (hx : Gives Q x) (hy : Gives Q y) :
    Gives Q (if c then x else y) := by
  split
  · exact hx
  · exact hy

end Gives

section

variable (source frames)

theorem gives_varDeclaration : Gives Node.NeverReturns (varDeclaration source frames) := by
  refine .last fun name => .last fun o => ?_
  cases o with
  | none => exact .last fun _ => .last fun _ => .pure (.var _ _)
  | some _ => exact .last fun _ => .last fun _ => .pure (.var _ _)

theorem gives_expressionStatement : Gives (fun n => ∃ e, n = .expression e)
    (expressionStatement source frames) :=
  .last fun e => .last fun _ => .pure ⟨e, rfl⟩

theorem gives_returnStatement (keyword : Token) :
    Gives (·.declared = []) (returnStatement source frames keyword) := by
  simp only [returnStatement]
  refine .last fun p => .ite (.last fun _ => ?_) ?_
  all_goals
    refine .last fun _ => .ite ?_ ?_
    all_goals
      refine .last fun value => .last fun _ => ?_
      exact .pure rfl

theorem gives_forInitializer :
    Gives (fun o => ∀ n ∈ o, n.NeverReturns) (forInitializer source frames) := by
  refine .last fun o => .ite (.pure nofun) (.last fun o => .ite ?_ ?_)
  · exact (gives_varDeclaration source frames).bind fun n hn =>
      .pure fun m hm => Option.some.inj hm ▸ hn
  · refine (gives_expressionStatement source frames).bind ?_
    rintro _ ⟨e, rfl⟩
    exact .pure fun m hm => Option.some.inj hm ▸ .expression e

end

/-- What the rules for statements give declares nothing outside its blocks. -/
structure StatementsGive (source : Source) (frames : Nat) : Prop where
  statement : Gives (·.declared = []) (statement source frames)
  ifStatement : Gives (·.declared = []) (ifStatement source frames)
  whileStatement : Gives (·.declared = []) (whileStatement source frames)
  forStatement : ∀ keyword, Gives (·.declared = []) (forStatement source frames keyword)

theorem statementsGive (source : Source) (frames : Nat) : StatementsGive source frames := by
  induction frames with
  | zero => exact ⟨.throw _, .throw _, .throw _, fun _ => .throw _⟩
  | succ frames ih =>
    refine ⟨?_, ?_, ?_, fun keyword => ?_⟩
    · simp only [Parse.statement]
      refine .last fun t => ?_
      generalize t.kind = kind
      split
      · exact .last fun _ => .last fun _ => .last fun _ => .pure rfl
      · exact .last fun _ => .last fun _ => .pure rfl
      · exact .last fun _ => ih.ifStatement
      · exact .last fun _ => ih.whileStatement
      · exact .last fun _ => ih.forStatement t
      · exact .last fun _ => gives_returnStatement source frames t
      · refine (gives_expressionStatement source frames).mono ?_
        rintro n ⟨e, rfl⟩
        rfl
    · refine .last fun _ => .last fun c => .last fun _ => ih.statement.bind fun n hn => ?_
      refine .last fun o => ?_
      cases o with
      | none => exact .pure (List.append_eq_nil_iff.2 ⟨hn, rfl⟩)
      | some _ => exact ih.statement.bind fun e he => .pure (List.append_eq_nil_iff.2 ⟨hn, he⟩)
    · exact .last fun _ => .last fun c => .last fun _ => ih.statement.bind fun n hn => .pure hn
    · rw [forStatement_eq]
      exact .map (Q := fun _ => True) (fun _ _ _ _ => trivial) fun _ _ => rfl

/-- The clauses of a `for` statement, however it is parsed. -/
theorem gives_forClauses (source : Source) (frames : Nat) :
    Gives ForClauses.WellFormed (forClauses source frames) := by
  refine .last fun _ => (gives_forInitializer source frames).bind fun i hi => ?_
  refine .last fun c => .last fun r => ?_
  exact (statementsGive source frames).statement.bind fun n hn => .pure ⟨hi, hn⟩

end Parse

end Lox
