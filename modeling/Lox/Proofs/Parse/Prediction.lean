import Lox.Proofs.Parse.Tracking

/-!
What each rule of the parser goes by: with one token at a time it takes just the words of its symbol, as
long as what may come after them can be told from how they would go on. Main statement: the rules of
expressions and of statements do.
-/

set_option autoImplicit false

namespace Lox

open Grammar
open Grammar.Words (ofKinds Possible Avoids Begins Follows)
open scoped Computability

namespace Parse

variable {source : Source} {frames : Nat} {K : Words}

/-- A rule takes the words of a symbol. Then such words may come as came after those before. -/
def Predicts (source : Source) {α : Type} (x : Parse α) (s : Symbol) (K : Words) : Prop :=
  Tracks source source.turns (s.words * K) x fun _ => K

/-- The rules of expressions with some frames. -/
structure ExpressionsPredict (source : Source) (frames : Nat) : Prop where
  expression : ∀ {K}, Follows followers K →
    Predicts source (expression source frames) (.phrase .assignment) K
  assignment : ∀ {K}, Follows followers K →
    Predicts source (assignment source frames) (.phrase .assignment) K
  operand : ∀ {rank K}, rank.isOperand → Follows rank.followers K →
    Predicts source (operand source frames rank.levels) (.phrase rank) K
  call : ∀ {K}, Follows [.leftParen] K → Predicts source (call source frames) (.phrase .call) K
  finishCall : ∀ {K} callee, Possible K →
    Predicts source (finishCall source frames callee) .callEnd K
  primary : ∀ {K}, Possible K → Predicts source (primary source frames) (.phrase .primary) K

namespace ExpressionsPredict

variable (hl : source.last.isEnd) (ih : ExpressionsPredict source frames)
include hl ih

theorem assignment_succ (hK : Follows followers K) :
    Predicts source (Parse.assignment source (frames + 1)) (.phrase .assignment) K := by
  have hor : Follows Rank.or.followers K := hK.mono (by decide)
  have hequal : Avoids Rank.or.followers
      (ofKinds [.equal] * ((Symbol.phrase .assignment).words * K)) :=
    ((Begins.ofKinds _).mul _).avoids (by decide)
  rw [Predicts, Symbol.assignment_mul]
  refine .bind (ih.operand (.inl (by decide)) (hor.add hequal)) fun target => ?_
  refine .bind (.accept hl (by decide) (hK.avoids.mono (by decide))) fun o => ?_
  cases o with
  | none => exact .pure _
  | some equals =>
    refine .bind (ih.assignment hK) fun value => ?_
    split
    · exact .pure _
    · exact .bind (.report _ rfl) fun _ => .pure _

theorem operand_infix {rank : Rank} (hi : rank.operators ≠ []) (hK : Follows rank.followers K) :
    Predicts source (Parse.operand source (frames + 1) rank.levels) (.phrase rank) K := by
  obtain ⟨next, level, hr, hnext, hlevels, hops, -⟩ := Rank.levels_eq hi
  have hsegment : Begins rank.operators (ofKinds rank.operators * (Symbol.phrase next).words) :=
    (Begins.ofKinds _).mul _
  have hclear : ∀ k ∈ rank.operators, k ∉ next.followers := by cases rank <;> cases hr <;> decide
  have hfollowers : ∀ k ∈ next.followers, k ∈ rank.followers := by
    cases rank <;> cases hr <;> decide
  have hafter := (hK.mono hfollowers).kstar_mul hsegment hclear
  have htakes := (expressionsTake hl frames).operand next.levels
  rw [Predicts, Symbol.infix_mul K hr hi, hlevels]
  simp only [Parse.operand, hops]
  refine .bind (ih.operand hnext hafter) fun left =>
    .extend (fun p left n h => ?_) (fun left => ?_) (Nat.le_refl _) left
  · exact accept_length_lt rfl (fun operator => htakes.first fun right => .pure _) h
  · refine .bind (.acceptMore hl rank.eof_notMem_operators (hK.avoids.mono rank.operators_followers))
      fun o => ?_
    cases o with
    | none => exact .last
    | some operator =>
      refine .bind (ih.operand hnext hafter) fun right => ?_
      exact .more _

theorem operand_unary (hK : Follows [.leftParen] K) :
    Predicts source (Parse.operand source (frames + 1) []) (.phrase .unary) K := by
  have hcall : Avoids [.bang, .minus] ((Symbol.phrase .call).words * K) :=
    (Symbol.call_begins.mul K).avoids (by decide)
  rw [Predicts, Symbol.unary_mul]
  refine .bind (.accept hl (by decide) hcall) fun o => ?_
  cases o with
  | none => exact ih.call hK
  | some operator =>
    have hright : Predicts source (Parse.operand source frames Rank.unary.levels) (.phrase .unary) K :=
      ih.operand (.inr rfl) hK
    exact .bind hright fun right => .pure _

theorem call_succ (hK : Follows [.leftParen] K) :
    Predicts source (Parse.call source (frames + 1)) (.phrase .call) K := by
  have htakes := (expressionsTake hl frames).finishCall
  rw [Predicts, Symbol.call_mul]
  refine .bind (ih.primary (.kstar_mul hK.possible)) fun callee =>
    .extend (fun p callee n h => ?_) (fun callee => ?_) (Nat.le_refl _) callee
  · exact accept_length_lt rfl (fun _ => (htakes callee).first fun n => .pure _) h
  · refine .bind (.acceptMore hl (by decide) hK.avoids) fun o => ?_
    cases o with
    | none => exact .last
    | some _ =>
      refine .bind (ih.finishCall callee (.kstar_mul hK.possible)) fun n => ?_
      exact .more _

theorem finishCall_succ (callee : Node) (hK : Possible K) :
    Predicts source (Parse.finishCall source (frames + 1) callee) .callEnd K := by
  have hparen : ∀ arguments : List Node, Tracks source source.turns (ofKinds [.rightParen] * K) (do
      let paren ← Parse.expect source .rightParen (.missing ')' .arguments)
      return Node.call callee (.token paren) arguments) fun _ => K := fun arguments =>
    .bind (.expect hl (by decide) rfl hK) fun _ => .pure _
  have hclose : Follows followers (ofKinds [.rightParen] * K) := .mark hK (by decide)
  have hcomma : Begins [.comma] (ofKinds [.comma] * (Symbol.phrase .assignment).words) :=
    (Begins.ofKinds _).mul _
  have hafter := hclose.kstar_mul hcomma (by decide)
  have hlast : Follows [.comma] (ofKinds [.rightParen] * K) := .mark hK (by decide)
  have htakes := (expressionsTake hl frames).expression
  rw [Predicts, Symbol.callEnd_mul]
  simp only [Parse.finishCall]
  refine .nextIs (hparen []) (.bind ?_ hparen) ?_
  · exact .separated hl rfl htakes (ih.expression hafter) hlast.avoids (Nat.le_refl _) _
  · exact ((Symbol.phrase_begins .assignment).mul _).avoids (by decide)

theorem primary_succ (hK : Possible K) :
    Predicts source (Parse.primary source (frames + 1)) (.phrase .primary) K := by
  have hclose : Follows followers (ofKinds [.rightParen] * K) := .mark hK (by decide)
  intro p hp
  refine .peek ?_
  generalize ht : p.pending.headD source.last = t
  split
  next hk =>
    have hk := isLiteral_iff.1 hk
    have hparen : t.kind ≠ .leftParen := by rintro he; simp [he, literals] at hk
    have hend : t.kind ≠ .eof := by rintro he; simp [he, literals] at hk
    refine Tracks.advance hl (.pure _) hp ht hend fun w => ?_
    simp [Symbol.cons_mem_primary, hk, hparen]
  next hliteral =>
  split
  next hk =>
    refine Tracks.advance hl (.pure _) hp ht (by simp [hk]) fun w => ?_
    simp [Symbol.cons_mem_primary, hk, literals]
  next hname =>
  split
  next hk =>
    have hgrouping := (ih.expression hclose).bind fun value =>
      (Tracks.expect (c := .missing ')' .expression) hl (by decide) rfl hK).bind fun _ =>
        .pure (Node.grouping value)
    refine hgrouping.advance hl hp ht (by simp [hk]) fun w => ?_
    simp [Symbol.cons_mem_primary, hk, literals]
  next hparen =>
    refine .fail rfl ((Symbol.phrase_possible .primary).mul hK) fun w hw => ?_
    rw [ht, Symbol.cons_mem_primary] at hw
    simp [mt isLiteral_iff.2 hliteral, hname, hparen] at hw

end ExpressionsPredict

theorem expressionsPredict (hl : source.last.isEnd) (frames : Nat) :
    ExpressionsPredict source frames := by
  induction frames with
  | zero => constructor <;> intros <;> exact .exhausted
  | succ frames ih =>
    refine ⟨ih.assignment, ih.assignment_succ hl, fun hr hK => ?_, ih.call_succ hl,
      ih.finishCall_succ hl, ih.primary_succ hl⟩
    obtain hi | rfl := hr
    · exact ih.operand_infix hl hi hK
    · exact ih.operand_unary hl hK

/-- What may come after a statement: an `else` only where it could as well belong to the statement. -/
structure AfterStatement (K : Words) : Prop where
  possible : Possible K
  elses : ∀ t w, t.kind = .elseWord → t :: w ∈ K → w ∈ Symbol.statement.words * K

theorem AfterStatement.of_follows (hK : Follows [.elseWord] K) : AfterStatement K :=
  ⟨hK.possible, fun t w ht hw => absurd hw (hK.avoids t w (by simp [ht]))⟩

section Clauses

variable (hl : source.last.isEnd) (frames : Nat) (hK : Possible K)
include hl hK

/-- A closing token, and what is left to do. -/
theorem close {α : Type} {k : Kind} (hk : k ≠ .eof) {c : Complaint} (hc : c.unwinds = true) (a : α) :
    Tracks source source.turns (ofKinds [k] * K) (do
      let _ ← expect source k c
      return a) fun _ => K :=
  .bind (.expect hl hk hc hK) fun _ => .pure a

theorem varDeclaration_predicts : Predicts source (varDeclaration source frames) .variable K := by
  have hsemicolon : Follows followers (ofKinds [.semicolon] * K) := .mark hK (by decide)
  have hvalue := (expressionsPredict hl frames).expression hsemicolon
  rw [Predicts, Symbol.variable_mul]
  refine .bind (.expect hl (by decide) rfl (hsemicolon.possible.add _)) fun name => ?_
  refine .bind (.accept hl (by decide) (hsemicolon.avoids.mono (by decide))) fun o => ?_
  cases o with
  | none => exact .bind (.pure _) fun n => close hl hK (by decide) rfl _
  | some _ => exact .bind hvalue fun n => close hl hK (by decide) rfl _

theorem expressionStatement_predicts :
    Predicts source (expressionStatement source frames) .expressionStatement K := by
  rw [Predicts, Symbol.expressionStatement_mul]
  exact .bind ((expressionsPredict hl frames).expression (.mark hK (by decide))) fun n =>
    close hl hK (by decide) rfl _

theorem printStatement_predicts :
    Predicts source (printStatement source frames) .printStatement K := by
  rw [Predicts, Symbol.printStatement_mul]
  exact .bind ((expressionsPredict hl frames).expression (.mark hK (by decide))) fun n =>
    close hl hK (by decide) rfl _

theorem returnStatement_predicts (keyword : Token) :
    Predicts source (returnStatement source frames keyword) .returnStatement K := by
  have hvalue := (expressionsPredict hl frames).expression
    (K := ofKinds [.semicolon] * K) (.mark hK (by decide))
  have hopener : Avoids [.semicolon]
      ((Symbol.phrase .assignment).words * (ofKinds [.semicolon] * K)) :=
    ((Symbol.phrase_begins .assignment).mul _).avoids (by decide)
  have hrest : ∀ n, Tracks source source.turns (ofKinds [.semicolon] * K) (do
      let _ ← expect source .semicolon (.missing ';' .returnValue)
      return Node.ret (.token keyword) n) fun _ => K := fun n => close hl hK (by decide) rfl _
  rw [Predicts, Symbol.returnStatement_mul]
  simp only [returnStatement]
  refine .bind .get fun p => .ite (.bind (.report _ rfl) fun _ => ?_) ?_
  all_goals exact .nextIs (.bind (.pure _) hrest) (.bind hvalue hrest) hopener

theorem parameters_predicts :
    Predicts source (parameters source) .parameters (ofKinds [.rightParen] * K) := by
  have hclose : Follows [.comma] (ofKinds [.rightParen] * K) := .mark hK (by decide)
  rw [Predicts, Symbol.parameters_mul]
  refine .nextIs (.pure _) ?_ (((Begins.ofKinds _).mul _).avoids (by decide))
  refine .separated hl rfl ?_ ?_ hclose.avoids (Nat.le_refl _) _
  · exact .map _ (.expect_one hl (by decide) (fun _ _ => rfl) _)
  · exact .map _ (.expect hl (by decide) rfl (.kstar_mul hclose.possible))

theorem forInitializer_predicts :
    Predicts source (forInitializer source frames) .initializer K := by
  have hexpression : Begins openers (Symbol.expressionStatement.words * K) :=
    Symbol.expressionStatement_begins.mul K
  have hvar : Avoids [.semicolon] (ofKinds [.varWord] * (Symbol.variable.words * K)) :=
    ((Begins.ofKinds _).mul _).avoids (by decide)
  rw [Predicts, Symbol.initializer_mul]
  refine .bind (.accept hl (by decide) ((hexpression.avoids (by decide)).add hvar)) fun o => ?_
  cases o with
  | some _ => exact .pure _
  | none =>
    refine .bind (.accept hl (by decide) (hexpression.avoids (by decide))) fun o => ?_
    cases o with
    | some _ => exact .bind (varDeclaration_predicts hl frames hK) fun n => .pure _
    | none => exact .bind (expressionStatement_predicts hl frames hK) fun n => .pure _

theorem forClause_tracks {closing : Kind} (hk : closing ≠ .eof) (hf : closing ∉ followers)
    (ho : closing ∉ openers) {c : Complaint} (hc : c.unwinds = true) :
    Tracks source source.turns ((1 + (Symbol.phrase .assignment).words) * (ofKinds [closing] * K))
      (forClause source frames closing c) fun _ => K := by
  have hvalue := (expressionsPredict hl frames).expression
    (K := ofKinds [closing] * K) (.mark hK hf)
  have hopener : Avoids [closing] ((Symbol.phrase .assignment).words * (ofKinds [closing] * K)) :=
    ((Symbol.phrase_begins .assignment).mul _).avoids
      fun k hk he => ho (List.mem_singleton.1 he ▸ hk)
  have hrest : ∀ clause : Option Node, Tracks source source.turns (ofKinds [closing] * K) (do
      let _ ← expect source closing c
      return clause) fun _ => K := fun clause => close hl hK hk hc _
  rw [add_mul, one_mul]
  exact .nextIs (.bind (.pure _) hrest) (.bind (.map _ hvalue) hrest) hopener

end Clauses

/-- The rules of statements with some frames. -/
structure StatementsPredict (source : Source) (frames : Nat) : Prop where
  declaration : ∀ {K}, Follows [.elseWord] K →
    Predicts source (declaration source frames) .declaration K
  functionDeclaration : ∀ {K}, Possible K →
    Predicts source (functionDeclaration source frames) .function K
  block : ∀ {K}, Possible K → Predicts source (block source frames) .block K
  statement : ∀ {K}, AfterStatement K → Predicts source (statement source frames) .statement K
  ifStatement : ∀ {K}, AfterStatement K → Predicts source (ifStatement source frames) .ifStatement K
  whileStatement : ∀ {K}, AfterStatement K →
    Predicts source (whileStatement source frames) .whileStatement K
  forStatement : ∀ {K} keyword, AfterStatement K →
    Predicts source (forStatement source frames keyword) .forStatement K

namespace StatementsPredict

variable (hl : source.last.isEnd) (ih : StatementsPredict source frames)
include hl ih

theorem declaration_succ (hK : Follows [.elseWord] K) :
    Predicts source (Parse.declaration source (frames + 1)) .declaration K := by
  have hstatement : Begins statementOpeners (Symbol.statement.words * K) :=
    Symbol.statement_begins.mul K
  have hfunction : Avoids [.varWord] (ofKinds [.funWord] * (Symbol.function.words * K)) :=
    ((Begins.ofKinds _).mul _).avoids (by decide)
  rw [Predicts, Symbol.declaration_mul]
  refine .recover (.bind (.accept hl (by decide) ((hstatement.avoids (by decide)).add hfunction))
    fun o => ?_)
  cases o with
  | some _ => exact varDeclaration_predicts hl frames hK.possible
  | none =>
    refine .bind (.accept hl (by decide) (hstatement.avoids (by decide))) fun o => ?_
    cases o with
    | some _ => exact ih.functionDeclaration hK.possible
    | none => exact ih.statement (.of_follows hK)

theorem block_succ (hK : Possible K) :
    Predicts source (Parse.block source (frames + 1)) .block K := by
  have hbrace : Follows [.elseWord] (ofKinds [.rightBrace] * K) := .mark hK (by decide)
  have hafter := hbrace.kstar_mul Symbol.declaration_begins (by decide)
  have htakes := (statementsTake hl frames).declaration
  rw [Predicts, Symbol.block_mul]
  refine .bind (.untilBrace hl (by decide) (by decide) htakes
    (ih.declaration hafter) Symbol.declaration_begins (Nat.le_refl _) _) fun ns => ?_
  exact close hl hK (by decide) rfl _

theorem functionDeclaration_succ (hK : Possible K) :
    Predicts source (Parse.functionDeclaration source (frames + 1)) .function K := by
  have hblock := Symbol.block_possible.mul hK
  have hparams := Symbol.parameters_possible.mul ((hblock.mark .leftBrace).mark .rightParen)
  rw [Predicts, Symbol.function_mul]
  refine .bind (.expect hl (by decide) rfl (hparams.mark .leftParen)) fun name => ?_
  refine .bind (.expect hl (by decide) rfl hparams) fun _ => ?_
  refine .bind (parameters_predicts hl (hblock.mark .leftBrace)) fun params => ?_
  refine .bind (.expect hl (by decide) rfl (hblock.mark .leftBrace)) fun _ => ?_
  refine .bind (.expect hl (by decide) rfl hblock) fun _ => ?_
  exact .bind (.inFunction (ih.block hK)) fun body => .pure _

theorem ifStatement_succ (hK : AfterStatement K) :
    Predicts source (Parse.ifStatement source (frames + 1)) .ifStatement K := by
  have he := expressionsPredict hl frames
  have hbranch : AfterStatement (K + ofKinds [.elseWord] * (Symbol.statement.words * K)) := by
    refine ⟨hK.possible.add _, fun t w ht hw => ?_⟩
    rw [mul_add]
    refine .inl ?_
    rcases hw with hw | hw
    · exact hK.elses t w ht hw
    · exact (Words.cons_mem_ofKinds_mul.1 hw).2
  have hthen := Symbol.statement_possible.mul hbranch.possible
  have hcondition := (Symbol.phrase_possible .assignment).mul (hthen.mark .rightParen)
  rw [Predicts, Symbol.ifStatement_mul]
  refine .bind (.expect hl (by decide) rfl hcondition) fun _ => ?_
  refine .bind (he.expression (.mark hthen (by decide))) fun c => ?_
  refine .bind (.expect hl (by decide) rfl hthen) fun _ => .bind (ih.statement hbranch) fun n => ?_
  refine .bind (.acceptShared hl (by decide) fun t w ht => hK.elses t w (List.mem_singleton.1 ht))
    fun o => ?_
  cases o with
  | none => exact .pure _
  | some _ => exact .bind (ih.statement hK) fun e => .pure _

theorem whileStatement_succ (hK : AfterStatement K) :
    Predicts source (Parse.whileStatement source (frames + 1)) .whileStatement K := by
  have he := expressionsPredict hl frames
  have hbody := Symbol.statement_possible.mul hK.possible
  have hcondition := (Symbol.phrase_possible .assignment).mul (hbody.mark .rightParen)
  rw [Predicts, Symbol.whileStatement_mul]
  refine .bind (.expect hl (by decide) rfl hcondition) fun _ => ?_
  refine .bind (he.expression (.mark hbody (by decide))) fun c => ?_
  exact .bind (.expect hl (by decide) rfl hbody) fun _ => .bind (ih.statement hK) fun n => .pure _

theorem forStatement_succ (keyword : Token) (hK : AfterStatement K) :
    Predicts source (Parse.forStatement source (frames + 1) keyword) .forStatement K := by
  have hclause {L : Words} (k : Kind) (hL : Possible L) :
      Possible ((1 + (Symbol.phrase .assignment).words) * (ofKinds [k] * L)) :=
    (Possible.one.add _).mul (hL.mark k)
  have hbody := Symbol.statement_possible.mul hK.possible
  have hincrement := hclause .rightParen hbody
  have hcondition := hclause .semicolon hincrement
  rw [Predicts, Symbol.forStatement_mul]
  refine .bind (.expect hl (by decide) rfl (Symbol.initializer_possible.mul hcondition)) fun _ => ?_
  refine .bind (forInitializer_predicts hl frames hcondition) fun before => ?_
  refine .bind (forClause_tracks hl frames hincrement (by decide) (by decide) (by decide) rfl)
    fun c => ?_
  refine .bind (forClause_tracks hl frames hbody (by decide) (by decide) (by decide) rfl)
    fun after => ?_
  exact .bind (ih.statement hK) fun n => .pure _

theorem statement_succ (hK : AfterStatement K) :
    Predicts source (Parse.statement source (frames + 1)) .statement K := by
  intro p hp
  simp only [Parse.statement]
  refine .peek ?_
  generalize ht : p.pending.headD source.last = t
  have hnot {k : Kind} (hk : t.kind = k) (ho : k ∉ openers) (w : List Token) :
      t :: w ∉ Symbol.expressionStatement.words * K := fun hw => by
    obtain ⟨_, _, ⟨⟩, hu⟩ := Symbol.expressionStatement_begins.mul K _ hw
    exact ho (hk ▸ hu)
  split
  next hk =>
    refine Tracks.advance hl (printStatement_predicts hl frames hK.possible) hp ht (by simp [hk])
      fun w => ?_
    simp [Symbol.cons_mem_statement, hnot hk (by decide), hk]
  next hk =>
    refine Tracks.advance hl (.map _ (ih.block hK.possible)) hp ht (by simp [hk]) fun w => ?_
    simp [Symbol.cons_mem_statement, hnot hk (by decide), hk]
  next hk =>
    refine Tracks.advance hl (ih.ifStatement hK) hp ht (by simp [hk]) fun w => ?_
    simp [Symbol.cons_mem_statement, hnot hk (by decide), hk]
  next hk =>
    refine Tracks.advance hl (ih.whileStatement hK) hp ht (by simp [hk]) fun w => ?_
    simp [Symbol.cons_mem_statement, hnot hk (by decide), hk]
  next hk =>
    refine Tracks.advance hl (ih.forStatement t hK) hp ht (by simp [hk]) fun w => ?_
    simp [Symbol.cons_mem_statement, hnot hk (by decide), hk]
  next hk =>
    refine Tracks.advance hl (returnStatement_predicts hl frames hK.possible t) hp ht
      (by simp [hk]) fun w => ?_
    simp [Symbol.cons_mem_statement, hnot hk (by decide), hk]
  next hprint hbrace hif hwhile hfor hreturn =>
    refine (expressionStatement_predicts hl frames hK.possible p hp).narrow (fun w hw => ?_)
      fun w hw => ?_
    · rw [Symbol.statement_mul]
      exact .inl (.inl (.inl (.inl (.inl (.inl hw)))))
    · rw [ht] at hw ⊢
      obtain hw | ⟨hk, -⟩ | ⟨hk, -⟩ | ⟨hk, -⟩ | ⟨hk, -⟩ | ⟨hk, -⟩ | ⟨hk, -⟩ :=
        Symbol.cons_mem_statement.1 hw
      · exact hw
      all_goals contradiction

end StatementsPredict

theorem statementsPredict (hl : source.last.isEnd) (frames : Nat) :
    StatementsPredict source frames := by
  induction frames with
  | zero => constructor <;> intros <;> exact .exhausted
  | succ frames ih =>
    exact ⟨ih.declaration_succ hl, ih.functionDeclaration_succ hl, ih.block_succ hl,
      ih.statement_succ hl, ih.ifStatement_succ hl, ih.whileStatement_succ hl, ih.forStatement_succ hl⟩

end Parse

end Lox
