import Lox.Proofs.Parse.Copies
import Lox.Proofs.Parse.Programs

/-!
The rules of the parser on a part of a text. Main statement: the declarations of a part that is parsed by
itself without a report are parsed alike at the head of the whole text.
-/

set_option autoImplicit false

namespace Lox

namespace Parse

open Grammar

variable {S : Excerpt} {frames : Nat}

namespace Excerpt

theorem node_build (level : Level) (l r : Node) (op : Token) :
    S.node (level.build l op r) = level.build (S.node l) (S.token op) (S.node r) := by
  unfold Level.build
  split <;> rfl

theorem node_call (callee : Node) (paren : Token) (ns : List Node) :
    S.node (.call callee (.token paren) ns) =
      .call (S.node callee) (.token (S.token paren)) (ns.map S.node) := by
  unfold node
  rw [Node.map, Node.mapAll_eq]
  rfl

theorem node_block (ns : List Node) : S.node (.block ns) = .block (ns.map S.node) := by
  unfold node
  rw [Node.map, Node.mapAll_eq]

theorem node_function (name : Token) (params body : List Node) :
    S.node (.function (.token name) params (.block body)) =
      .function (.token (S.token name)) (params.map S.node) (.block (body.map S.node)) := by
  rw [← node_block, node, Node.map, Node.mapAll_eq]
  rfl

theorem node_forLoop (keyword : Token) (before c after : Option Node) (n : Node) :
    S.node (.forLoop keyword before c after n) = .forLoop (S.token keyword) (before.map S.node)
      (c.map S.node) (after.map S.node) (S.node n) := by
  cases before <;> cases c <;> cases after <;> rfl

end Excerpt

/-- The rules of expressions with some frames are copied. -/
structure ExpressionsCopy (S : Excerpt) (frames : Nat) : Prop where
  expression : Copies S S.part.turns true S.node (expression S.part frames) (expression S.whole frames)
  assignment : Copies S S.part.turns true S.node (assignment S.part frames) (assignment S.whole frames)
  operand : ∀ levels, (∀ level ∈ levels, .eof ∉ level.operators) → Copies S S.part.turns true S.node
    (operand S.part frames levels) (operand S.whole frames levels)
  call : Copies S S.part.turns true S.node (call S.part frames) (call S.whole frames)
  finishCall : ∀ callee, Copies S S.part.turns true S.node (finishCall S.part frames callee)
    (finishCall S.whole frames (S.node callee))
  primary : Copies S S.part.turns true S.node (primary S.part frames) (primary S.whole frames)

namespace ExpressionsCopy

theorem assignment_succ (ih : ExpressionsCopy S frames) : Copies S S.part.turns true S.node
    (Parse.assignment S.part (frames + 1)) (Parse.assignment S.whole (frames + 1)) := by
  simp only [Parse.assignment]
  refine (ih.operand Level.all (by decide)).bind fun target =>
    .accept (by decide) (.inl rfl) (.pure target) fun equals _ => ih.assignment.bind fun value => ?_
  cases target with
  | «variable» name => exact .pure _
  | _ => exact .report equals .invalidTarget (.pure _)

theorem operand_infix (ih : ExpressionsCopy S frames) {level : Level} {tighter : List Level}
    (hk : ∀ l ∈ level :: tighter, .eof ∉ l.operators) : Copies S S.part.turns true S.node
      (Parse.operand S.part (frames + 1) (level :: tighter))
      (Parse.operand S.whole (frames + 1) (level :: tighter)) := by
  obtain ⟨hlevel, htighter⟩ := List.forall_mem_cons.1 hk
  have hright : ∀ left operator, Copies S S.part.turns true (Option.map S.node) (do
        let right ← Parse.operand S.part frames tighter
        return some (level.build left operator right)) (do
        let right ← Parse.operand S.whole frames tighter
        return some (level.build (S.node left) (S.token operator) right)) := by
    refine fun left operator => (ih.operand tighter htighter).bind fun right => ?_
    rw [← Excerpt.node_build]
    exact .pure (some (level.build left operator right))
  simp only [Parse.operand]
  refine (ih.operand tighter htighter).bind fun left => .extend (fun left => ?_)
    (fun left p m q hq => ?_) _ _ S.turns (Nat.le_refl _) left
  · exact .accept hlevel (.inl rfl) (.pure none) fun operator _ => hright left operator
  · exact shrinks_of_accept S.last hlevel rfl (fun operator p => (hright left operator p).advances) hq

theorem operand_unary (ih : ExpressionsCopy S frames) : Copies S S.part.turns true S.node
    (Parse.operand S.part (frames + 1) []) (Parse.operand S.whole (frames + 1) []) := by
  simp only [Parse.operand]
  refine .accept (by decide) (.inl rfl) ih.call fun operator _ => ?_
  exact (ih.operand [] fun _ h => absurd h List.not_mem_nil).bind fun right => .pure _

theorem call_succ (ih : ExpressionsCopy S frames) : Copies S S.part.turns true S.node
    (Parse.call S.part (frames + 1)) (Parse.call S.whole (frames + 1)) := by
  have hend : ∀ callee, Copies S S.part.turns true (Option.map S.node)
      (do return some (← Parse.finishCall S.part frames callee))
      (do return some (← Parse.finishCall S.whole frames (S.node callee))) :=
    fun callee => (ih.finishCall callee).bind fun n => .pure (some n)
  simp only [Parse.call]
  refine ih.primary.bind fun callee => .extend (fun callee => ?_) (fun callee p m q hq => ?_) _ _
    S.turns (Nat.le_refl _) callee
  · exact .accept (by decide) (.inl rfl) (.pure none) fun _ _ => hend callee
  · exact shrinks_of_accept S.last (by decide) rfl (fun _ p => (hend callee p).advances) hq

theorem finishCall_succ (ih : ExpressionsCopy S frames) (callee : Node) :
    Copies S S.part.turns true S.node (Parse.finishCall S.part (frames + 1) callee)
      (Parse.finishCall S.whole (frames + 1) (S.node callee)) := by
  have hall := Copies.separated (c := .tooManyArguments) ih.expression _ _ S.turns (Nat.le_refl _)
    #[]
  rw [Array.map_empty] at hall
  have hclose : ∀ ns, Copies S S.part.turns true S.node (do
        let paren ← expect S.part .rightParen (.missing ')' .arguments)
        return .call callee (.token paren) ns) (do
        let paren ← expect S.whole .rightParen (.missing ')' .arguments)
        return .call (S.node callee) (.token paren) (ns.map S.node)) := by
    refine fun ns => .expect (by decide) fun paren _ => ?_
    rw [← Excerpt.node_call]
    exact .pure _
  simp only [Parse.finishCall]
  refine .nextIs (by decide) (.inl rfl) fun closes => .ite (.bind (.pure []) hclose) ?_
  exact .bind hall fun ns => hclose ns

theorem primary_succ (ih : ExpressionsCopy S frames) : Copies S S.part.turns true S.node
    (Parse.primary S.part (frames + 1)) (Parse.primary S.whole (frames + 1)) := by
  simp only [Parse.primary]
  refine .peek (.inl rfl) (fun t ht => ?_) fun p t rest hp => ?_
  · simpa [ht, Kind.isLiteral] using Copies.fail _
  · refine .ite (fun _ => ?_) fun _ => .ite (fun _ => ?_) fun _ => .ite (fun _ => ?_) fun _ => ?_
    · exact .advance (Nat.le_succ _) hp (.pure _)
    · exact .advance (Nat.le_succ _) hp (.pure _)
    · refine .advance (Nat.le_succ _) hp ?_
      exact ih.expression.bind fun value => .expect (by decide) fun _ _ => .pure _
    · exact Copies.fail _ p

end ExpressionsCopy

theorem expressionsCopy (S : Excerpt) (frames : Nat) : ExpressionsCopy S frames := by
  induction frames with
  | zero => constructor <;> intros <;> exact .exhausted
  | succ frames ih =>
    refine ⟨ih.assignment, ih.assignment_succ, fun levels hk => ?_, ih.call_succ, ih.finishCall_succ,
      ih.primary_succ⟩
    cases levels with
    | nil => exact ih.operand_unary
    | cons level tighter => exact ih.operand_infix hk

section Clauses

theorem needs_expectThen {α : Type} {kind : Kind} (hk : kind ≠ .eof) (c : Complaint)
    (f : Token → Parse α) : Needs (expect S.part kind c >>= f) :=
  (Needs.expect hk c).first f

theorem varDeclaration_copy : Copies S S.part.turns false S.node (varDeclaration S.part frames)
    (varDeclaration S.whole frames) := by
  have ih := expressionsCopy S frames
  simp only [varDeclaration]
  refine .expect (by decide) fun name _ => .accept (by decide) (.inr (.inl ?_)) ?_ fun equals _ => ?_
  · exact .second (fun p => .refl p) fun _ => needs_expectThen (by decide) _ _
  · exact .bind (.pure _) fun n => .expect (by decide) fun _ _ => .pure _
  · refine ih.expression.before (fun _ => needs_expectThen (by decide) _ _) fun n => ?_
    exact .expect (by decide) fun _ _ => .pure _

theorem expressionStatement_needs : Needs (expressionStatement S.part frames) :=
  .second (fun p => ((expressionsCopy S frames).expression p).advances) fun _ =>
    needs_expectThen (by decide) _ _

theorem expressionStatement_copy : Copies S S.part.turns false S.node
    (expressionStatement S.part frames) (expressionStatement S.whole frames) := by
  have ih := expressionsCopy S frames
  simp only [expressionStatement]
  refine ih.expression.before (fun _ => needs_expectThen (by decide) _ _) fun n => ?_
  exact .expect (by decide) fun _ _ => .pure _

theorem printStatement_copy : Copies S S.part.turns false S.node (printStatement S.part frames)
    (printStatement S.whole frames) := by
  have ih := expressionsCopy S frames
  simp only [printStatement]
  refine ih.expression.before (fun _ => needs_expectThen (by decide) _ _) fun n => ?_
  exact .expect (by decide) fun _ _ => .pure _

theorem returnStatement_copy (keyword : Token) : Copies S S.part.turns false S.node
    (returnStatement S.part frames keyword) (returnStatement S.whole frames (S.token keyword)) := by
  have ih := expressionsCopy S frames
  have hclose : ∀ n, Copies S S.part.turns false S.node (do
      let _ ← expect S.part .semicolon (.missing ';' .returnValue)
      return .ret (.token keyword) n) (do
      let _ ← expect S.whole .semicolon (.missing ';' .returnValue)
      return .ret (.token (S.token keyword)) (S.node n)) :=
    fun n => .expect (by decide) fun _ _ => .pure _
  have hrest : Copies S S.part.turns false S.node (do
      let value ← if ← nextIs S.part .semicolon then pure .missing else expression S.part frames
      let _ ← expect S.part .semicolon (.missing ';' .returnValue)
      return .ret (.token keyword) value) (do
      let value ← if ← nextIs S.whole .semicolon then pure .missing else expression S.whole frames
      let _ ← expect S.whole .semicolon (.missing ';' .returnValue)
      return .ret (.token (S.token keyword)) value) := by
    refine .nextIs (by decide) (.inr ?_) fun closes => .ite (.bind (.pure _) hclose) ?_
    · exact .second (fun p => (ih.expression p).advances) fun _ => needs_expectThen (by decide) _ _
    · exact .before ih.expression (fun _ => needs_expectThen (by decide) _ _) fun n => hclose n
  intro p
  by_cases hz : p.functionDepth = 0
  · have hreported : Copies S S.part.turns false S.node (report keyword .strayReturn >>= fun _ => _)
        (returnStatement S.whole frames (S.token keyword)) := .report keyword .strayReturn hrest
    refine (hreported p).congr ?_ fun _ => rfl
    simp only [returnStatement, bind_apply, get_apply, hz, if_true]
  · refine (hrest p).congr ?_ fun d => ?_
    · simp only [returnStatement, bind_apply, get_apply, hz, if_false]
    · have hdepth : (S.parser p d).functionDepth ≠ 0 := hz
      simp only [returnStatement, bind_apply, get_apply, hdepth, if_false]

theorem parameters_copy : Copies S S.part.turns true (List.map S.node) (parameters S.part)
    (parameters S.whole) := by
  have hone : Copies S S.part.turns true S.node
      (Node.token <$> expect S.part .identifier (.missingName .parameter))
      (Node.token <$> expect S.whole .identifier (.missingName .parameter)) := by
    rw [map_eq_pure_bind, map_eq_pure_bind]
    exact .expect (by decide) fun _ _ => .pure _
  have hall := Copies.separated (c := .tooManyParameters) hone _ _ S.turns (Nat.le_refl _) #[]
  rw [Array.map_empty] at hall
  simp only [parameters]
  exact .nextIs (by decide) (.inl rfl) fun closes => .ite (.pure []) hall

theorem forInitializer_copy : Copies S S.part.turns false (Option.map S.node)
    (forInitializer S.part frames) (forInitializer S.whole frames) := by
  simp only [forInitializer]
  refine .accept (by decide) (.inr (.inl ?_)) (.accept (by decide) (.inr (.inl ?_)) ?_ fun _ _ => ?_)
    fun _ _ => .pure none
  · exact .accept (by decide) (expressionStatement_needs.first _)
  · exact expressionStatement_needs.first _
  · exact expressionStatement_copy.bind fun n => .pure (some n)
  · exact varDeclaration_copy.bind fun n => .pure (some n)

theorem forClause_copy {closing : Kind} (hk : closing ≠ .eof) (c : Complaint) :
    Copies S S.part.turns false (Option.map S.node) (forClause S.part frames closing c)
      (forClause S.whole frames closing c) := by
  have ih := expressionsCopy S frames
  have hclause : Copies S S.part.turns true (Option.map S.node) (some <$> expression S.part frames)
      (some <$> expression S.whole frames) := ih.expression.map fun _ => rfl
  have hclose : ∀ o, Copies S S.part.turns false (Option.map S.node) (do
      let _ ← expect S.part closing c
      return o) (do
      let _ ← expect S.whole closing c
      return o.map S.node) := fun o => .expect hk fun _ _ => .pure _
  simp only [forClause]
  refine .nextIs hk (.inr ?_) fun closes => .ite (.bind (.pure none) hclose) ?_
  · exact .second (fun p => (hclause p).advances) fun _ => needs_expectThen hk _ _
  · exact .before hclause (fun _ => needs_expectThen hk _ _) fun o => hclose o

end Clauses

/-- The rules of statements with some frames are copied, also at the end of the part. -/
structure StatementsCopy (S : Excerpt) (frames : Nat) : Prop where
  declaration : Copies S S.part.turns false (Option.map S.node) (declaration S.part frames)
    (declaration S.whole frames)
  functionDeclaration : Copies S S.part.turns false S.node (functionDeclaration S.part frames)
    (functionDeclaration S.whole frames)
  block : Copies S S.part.turns false (List.map S.node) (block S.part frames) (block S.whole frames)
  statement : Copies S S.part.turns false S.node (statement S.part frames) (statement S.whole frames)
  ifStatement : Copies S S.part.turns false S.node (ifStatement S.part frames)
    (ifStatement S.whole frames)
  whileStatement : Copies S S.part.turns false S.node (whileStatement S.part frames)
    (whileStatement S.whole frames)
  forStatement : ∀ keyword, Copies S S.part.turns false S.node (forStatement S.part frames keyword)
    (forStatement S.whole frames (S.token keyword))

/-- A declaration that is parsed without a report takes a token. -/
theorem declaration_shrinks (S : Excerpt) (frames : Nat) {p q : Parser} {o : Option Node}
    (hlt : p.pending.length < S.part.turns) (h : declaration S.part frames p = (.ok o, q))
    (hd : q.diagnostics = p.diagnostics) : q.pending.length < p.pending.length := by
  have hl : S.part.last.isEnd := by simp [Token.isEnd, S.last]
  obtain ⟨-, he⟩ := (statementsSound hl frames).declaration (decide (p.functionDepth ≠ 0)) p hlt
    (by simp)
  rw [h] at he
  obtain ⟨ts, hp, n, -, hn⟩ := he hd
  obtain ⟨t, us, rfl, -⟩ := hn.head
  have hlength := congrArg List.length hp
  simp at hlength
  omega

theorem statement_needs (S : Excerpt) (frames : Nat) : Needs (statement S.part frames) := by
  cases frames with
  | zero => exact .throw _
  | succ frames =>
    intro p a q hq hp
    have hstatement : statement S.part (frames + 1) p = expressionStatement S.part frames p := by
      simp only [statement, bind_apply, peek_apply, hp, List.headD_nil, S.last]
    rw [hstatement] at hq
    exact expressionStatement_needs p a q hq hp

namespace StatementsCopy

variable (ih : StatementsCopy S frames)
include ih

theorem declaration_succ : Copies S S.part.turns false (Option.map S.node)
    (Parse.declaration S.part (frames + 1)) (Parse.declaration S.whole (frames + 1)) := by
  simp only [Parse.declaration]
  refine .recover (.accept (by decide) (.inr (.inl ?_)) (.accept (by decide) (.inr (.inl ?_))
    ih.statement fun _ _ => ih.functionDeclaration) fun _ _ => varDeclaration_copy)
  · exact .accept (by decide) (statement_needs S frames)
  · exact statement_needs S frames

theorem functionDeclaration_succ : Copies S S.part.turns false S.node
    (Parse.functionDeclaration S.part (frames + 1)) (Parse.functionDeclaration S.whole (frames + 1)) := by
  simp only [Parse.functionDeclaration]
  refine .expect (by decide) fun name _ => .expect (by decide) fun _ _ => ?_
  refine parameters_copy.before (fun _ => needs_expectThen (by decide) _ _) fun params => ?_
  refine .expect (by decide) fun _ _ => .expect (by decide) fun _ _ => ?_
  refine (Copies.inFunction ih.block).bind fun body => ?_
  rw [← Excerpt.node_function]
  exact .pure _

theorem block_succ : Copies S S.part.turns false (List.map S.node) (Parse.block S.part (frames + 1))
    (Parse.block S.whole (frames + 1)) := by
  have hall := Copies.untilBrace ih.declaration (fun p o q hlt => declaration_shrinks S frames hlt) _ _
    S.turns (Nat.le_refl _) #[]
  rw [Array.map_empty] at hall
  simp only [Parse.block]
  refine hall.before (fun _ => needs_expectThen (by decide) _ _) fun ns => ?_
  exact .expect (by decide) fun _ _ => .pure _

theorem ifStatement_succ : Copies S S.part.turns false S.node (Parse.ifStatement S.part (frames + 1))
    (Parse.ifStatement S.whole (frames + 1)) := by
  have he := expressionsCopy S frames
  simp only [Parse.ifStatement]
  refine .expect (by decide) fun _ _ => ?_
  refine he.expression.before (fun _ => needs_expectThen (by decide) _ _) fun c => ?_
  refine .expect (by decide) fun _ _ => ih.statement.bind fun n => ?_
  -- The part may end here; what follows in the whole text is no `else`.
  refine .accept (by decide) (.inr (.inr rfl)) (.pure _) fun _ _ => ?_
  exact ih.statement.bind fun e => .pure _

theorem whileStatement_succ : Copies S S.part.turns false S.node
    (Parse.whileStatement S.part (frames + 1)) (Parse.whileStatement S.whole (frames + 1)) := by
  have he := expressionsCopy S frames
  simp only [Parse.whileStatement]
  refine .expect (by decide) fun _ _ => ?_
  refine he.expression.before (fun _ => needs_expectThen (by decide) _ _) fun c => ?_
  exact .expect (by decide) fun _ _ => ih.statement.bind fun n => .pure _

theorem forStatement_succ (keyword : Token) : Copies S S.part.turns false S.node
    (Parse.forStatement S.part (frames + 1) keyword)
    (Parse.forStatement S.whole (frames + 1) (S.token keyword)) := by
  simp only [Parse.forStatement]
  refine .expect (by decide) fun _ _ => forInitializer_copy.bind fun before => ?_
  refine (forClause_copy (by decide) _).bind fun c => (forClause_copy (by decide) _).bind fun after => ?_
  refine ih.statement.bind fun n => ?_
  rw [← Excerpt.node_forLoop]
  exact .pure _

theorem statement_succ : Copies S S.part.turns false S.node (Parse.statement S.part (frames + 1))
    (Parse.statement S.whole (frames + 1)) := by
  have hneeds := statement_needs S (frames + 1)
  simp only [Parse.statement] at hneeds ⊢
  refine .peek (.inr hneeds) (fun t ht => ?_) fun p t rest hp => ?_
  · rw [ht]
    exact expressionStatement_copy
  · rw [Excerpt.kind_token]
    generalize t.kind = kind
    split
    · exact .advance (Nat.le_succ _) hp printStatement_copy
    · exact .advance (Nat.le_succ _) hp (ih.block.map fun ns => (Excerpt.node_block ns).symm)
    · exact .advance (Nat.le_succ _) hp ih.ifStatement
    · exact .advance (Nat.le_succ _) hp ih.whileStatement
    · exact .advance (Nat.le_succ _) hp (ih.forStatement t)
    · exact .advance (Nat.le_succ _) hp (returnStatement_copy t)
    · exact expressionStatement_copy p

end StatementsCopy

theorem statementsCopy (S : Excerpt) (frames : Nat) : StatementsCopy S frames := by
  induction frames with
  | zero => constructor <;> intros <;> exact .exhausted
  | succ frames ih =>
    exact ⟨ih.declaration_succ, ih.functionDeclaration_succ, ih.block_succ, ih.statement_succ,
      ih.ifStatement_succ, ih.whileStatement_succ, ih.forStatement_succ⟩

/-- While nothing is reported, each turn gives a declaration. -/
theorem declaration_of_clean (S : Excerpt) (frames : Nat) {turns : Nat} {done : Array Node} {p : Parser}
    (hlt : p.pending.length < S.part.turns) (hd : p.functionDepth = 0) (hp : p.pending ≠ [])
    (hr : (programOnto S.part frames (turns + 1) done p).2.diagnostics = p.diagnostics) :
    ∃ n q, declaration S.part frames p = (.ok (some n), q) ∧ Advances p q ∧
      q.diagnostics = p.diagnostics ∧ programOnto S.part frames (turns + 1) done p =
        programOnto S.part frames turns (done.push n) q := by
  have hl : S.part.last.isEnd := by simp [Token.isEnd, S.last]
  obtain ⟨ha, he⟩ := (statementsSound hl frames).declaration false p hlt (by simp [hd])
  obtain ⟨first, rest, hq⟩ := List.exists_cons_of_ne_nil hp
  have hnext : ∀ done q, Advances p q → Advances q (programOnto S.part frames turns done q).2 :=
    fun done q h => programOnto_advances frames hl turns done q
      (Nat.lt_of_le_of_lt h.length_le hlt) (h.functionDepth.trans hd)
  rw [programOnto_succ hq] at hr ⊢
  cases hs : declaration S.part frames p with
  | mk r q =>
    rw [hs] at ha he hr
    cases r with
    | ok o =>
      cases o with
      | none =>
        obtain ⟨ts, -, n, hn, -⟩ := he (ha.squeeze (hnext _ _ ha) hr).1
        cases hn
      | some n => exact ⟨n, q, rfl, ha, (ha.squeeze (hnext _ _ ha) hr).1, rfl⟩
    | error e =>
      cases e with
      | syntaxError => exact absurd (ha.squeeze (hnext _ _ ha) hr).1 he
      | exhausted =>
        have hrep := Advances.report q (.at first .tooMuchNesting)
        have hsync := Advances.synchronize (q.report (.at first .tooMuchNesting))
        have hall := hnext done _ ((ha.trans hrep).trans hsync)
        have hq' := (ha.squeeze (hrep.trans (hsync.trans hall)) hr).2
        exact absurd (hrep.squeeze (hsync.trans hall) hq').1 (Advances.report_ne _ _)

/-- A part that is parsed by itself without a report is parsed alike at the head of the whole. -/
theorem programOnto_copy (S : Excerpt) (frames turns : Nat) (done : Array Node) (p : Parser)
    (hp : p.pending.length < turns) (ht : turns ≤ S.part.turns) (hd : p.functionDepth = 0)
    (hr : (programOnto S.part frames turns done p).2.diagnostics = p.diagnostics) :
    ∃ items, (programOnto S.part frames turns done p).1.toList = done.toList ++ items ∧
      items.length ≤ p.pending.length ∧ ∀ turns' done' d,
        programOnto S.whole frames (items.length + turns') done' (S.parser p d) =
          programOnto S.whole frames turns' (done' ++ (items.map S.node).toArray) ⟨S.more, d, 0⟩ := by
  induction turns generalizing done p with
  | zero => exact absurd hp (Nat.not_lt_zero _)
  | succ turns ih =>
    have hlt : p.pending.length < S.part.turns := Nat.lt_of_lt_of_le hp ht
    by_cases hq : p.pending = []
    · refine ⟨[], by simp [programOnto, hq], Nat.zero_le _, fun turns' done' d => ?_⟩
      simp [Excerpt.parser, hq, hd]
    · obtain ⟨n, q, hn, ha, hclean, hstep⟩ := declaration_of_clean S frames hlt hd hq hr
      have hshorter := declaration_shrinks S frames hlt hn hclean
      have hcopy := ((statementsCopy S frames).declaration p).copies hlt (some n) q hn hclean
        fun h => absurd h Bool.false_ne_true
      rw [hstep] at hr ⊢
      obtain ⟨items, hitems, hle, hwhole⟩ := ih (done.push n) q (by omega) (by omega)
        (ha.functionDepth.trans hd) (hr.trans hclean.symm)
      refine ⟨n :: items, by simpa using hitems, by simp; omega, fun turns' done' d => ?_⟩
      obtain ⟨first, rest, hpending⟩ := List.exists_cons_of_ne_nil hq
      have hpending' : (S.parser p d).pending = S.token first :: (rest.map S.token ++ S.more) := by
        rw [Excerpt.parser, hpending]
        rfl
      rw [List.length_cons, Nat.add_right_comm, programOnto_succ hpending', hcopy d]
      have hnext := hwhole turns' (done'.push (S.node n)) d
      simpa using hnext

end Parse

end Lox
