import Lox.Proofs.Parse.Programs

/-!
What the steps of a parse take from the tokens that are left. Main statements: an expression that is
parsed takes a token, a statement takes a semicolon or an opening brace, and a declaration that is
begun before the end and returns takes a token, with a result or without.
-/

set_option autoImplicit false

namespace Lox

theorem Source.last_isEnd (tokens : List Token) : (Source.ofTokens tokens).last.isEnd := by
  unfold Source.ofTokens Source.lastOf
  split
  next t h => exact List.find?_some h
  next => rfl

/-- Of any tokens, those before the first end mark are declarations if nothing is reported. -/
theorem parse_declarations {frames : Nat} {tokens : List Token}
    (hd : (parse frames tokens).diagnostics = []) : Grammar.Declarations false
      (tokens.takeWhile (!·.isEnd)) (parse frames tokens).statements := by
  have hlength : (Parser.ofTokens tokens).pending.length < (Source.ofTokens tokens).turns :=
    Nat.lt_succ_of_le (List.takeWhile_sublist _).length_le
  obtain ⟨items, hitems, h⟩ := Parse.programOnto_sound frames (Source.last_isEnd tokens)
    (Source.ofTokens tokens).turns #[] (.ofTokens tokens) hlength (Nat.le_refl _) rfl
    (Array.toList_inj.1 hd)
  rwa [show (parse frames tokens).statements = items from hitems]

/-- The tokens without which there is no statement. -/
def Token.isHinge (t : Token) : Bool := t.kind = .semicolon || t.kind = .leftBrace

namespace Parse

variable {α β : Type} {P : Token → Bool} {k l : Nat} {source : Source}

/-- However the step ends it only advances, and when it succeeds it has taken at least so many tokens
of a sort. -/
structure Takes (P : Token → Bool) (least : Nat) (x : Parse α) : Prop where
  advances : ∀ p, Advances p (x p).2
  taken : ∀ p a, (x p).1 = .ok a → (x p).2.pending.countP P + least ≤ p.pending.countP P

namespace Takes

theorem mono {x : Parse α} (h : Takes P k x) (hl : l ≤ k) : Takes P l x :=
  ⟨h.advances, fun p a ha => Nat.le_trans (Nat.add_le_add_left hl _) (h.taken p a ha)⟩

/-- Nothing is taken that has to be of a sort. -/
theorem of_advances {x : Parse α} (h : ∀ p, Advances p (x p).2) : Takes P 0 x :=
  ⟨h, fun p _ _ => (h p).pending.sublist.countP_le⟩

theorem pure (a : α) : Takes P 0 (pure a : Parse α) := of_advances fun p => .refl p

theorem throw (e : Abort) : Takes P k (throw e : Parse α) := ⟨fun p => .refl p, nofun⟩

theorem bind_add {x : Parse α} {f : α → Parse β} (hx : Takes P k x) (hf : ∀ a, Takes P l (f a)) :
    Takes P (k + l) (x >>= f) := by
  constructor
  · intro p
    have ha := hx.advances p
    rw [bind_apply]
    cases hs : x p with
    | mk r q =>
      rw [hs] at ha
      cases r with
      | ok a => exact ha.trans ((hf a).advances q)
      | error e => exact ha
  · intro p b hb
    rw [bind_apply] at hb ⊢
    cases hs : x p with
    | mk r q =>
      rw [hs] at hb
      cases r with
      | ok a =>
        have hfirst := hx.taken p a (by rw [hs])
        have hsecond := (hf a).taken q b hb
        rw [hs] at hfirst
        dsimp only at hfirst ⊢
        omega
      | error e => cases hb

theorem bind {x : Parse α} {f : α → Parse β} (hx : Takes P 0 x) (hf : ∀ a, Takes P k (f a)) :
    Takes P k (x >>= f) :=
  (hx.bind_add hf).mono (Nat.le_of_eq (Nat.zero_add k).symm)

/-- What the first step takes is enough. -/
theorem first {x : Parse α} {f : α → Parse β} (hx : Takes P k x) (hf : ∀ a, Takes P 0 (f a)) :
    Takes P k (x >>= f) :=
  hx.bind_add hf

theorem map {x : Parse α} (f : α → β) (h : Takes P k x) : Takes P k (f <$> x) := by
  rw [map_eq_pure_bind]
  exact h.first fun a => pure (f a)

theorem ite {c : Prop} [Decidable c] {x y : Parse α} (hx : Takes P k x) (hy : Takes P k y) :
    Takes P k (if c then x else y) := by
  split
  · exact hx
  · exact hy

theorem get : Takes P 0 (MonadState.get : Parse Parser) := of_advances fun p => .refl p

theorem peek : Takes P 0 (peek source) := of_advances fun p => .refl p

theorem atEnd : Takes P 0 Parse.atEnd := of_advances fun p => .refl p

theorem nextIs (kind : Kind) : Takes P 0 (nextIs source kind) := of_advances fun p => .refl p

theorem advance : Takes P 0 (advance source) := of_advances fun p => .drop p.pending.tail_suffix

theorem report (t : Token) (c : Complaint) : Takes P 0 (report t c) :=
  of_advances fun p => .report p _

theorem fail (c : Complaint) : Takes P k (fail source c : Parse α) :=
  ⟨fun p => .report p _, nofun⟩

theorem accept (kinds : List Kind) : Takes P 0 (accept? source kinds) := by
  refine of_advances fun p => ?_
  rw [accept?_apply]
  split
  · exact .drop p.pending.tail_suffix
  · exact .refl p

theorem expect (kind : Kind) (c : Complaint) : Takes P 0 (expect source kind c) := by
  refine of_advances fun p => ?_
  rw [expect_apply]
  split
  · exact .drop p.pending.tail_suffix
  · exact .report p _

/-- The end mark has no other kind, so a token of the kind is taken. -/
theorem expect_one (hl : source.last.isEnd) {kind : Kind} (hk : kind ≠ .eof)
    (hP : ∀ t : Token, t.kind = kind → P t) (c : Complaint) :
    Takes P 1 (Parse.expect source kind c) := by
  refine ⟨(expect (P := P) kind c).advances, fun p a ha => ?_⟩
  rw [expect_apply] at ha ⊢
  by_cases hkind : (p.pending.headD source.last).kind = kind
  · rw [if_pos hkind]
    cases hq : p.pending with
    | nil =>
      rw [hq] at hkind
      exact absurd (hkind.symm.trans (by simpa [Token.isEnd] using hl)) hk
    | cons t rest =>
      rw [hq] at hkind
      simp [hP t hkind]
  · rw [if_neg hkind] at ha
    cases ha

theorem inFunction {x : Parse α} (h : Takes P 0 x) : Takes P 0 (inFunction x) := by
  refine of_advances fun p => ?_
  have ha := h.advances { p with functionDepth := p.functionDepth + 1 }
  exact ⟨ha.pending, ha.diagnostics, congrArg (· - 1) ha.functionDepth⟩

theorem extend {step : Node → Parse (Option Node)} (h : ∀ n, Takes P 0 (step n)) (turns : Nat)
    (n : Node) : Takes P 0 (extend step turns n) := by
  induction turns generalizing n with
  | zero => exact pure n
  | succ turns ih =>
    refine bind (h n) fun o => ?_
    cases o with
    | none => exact pure n
    | some n => exact ih n

theorem separated {item : Parse Node} (h : Takes P 0 item) (excess : Complaint) (turns : Nat)
    (done : Array Node) : Takes P 0 (Parse.separated source excess item turns done) := by
  induction turns generalizing done with
  | zero => exact pure _
  | succ turns ih =>
    simp only [Parse.separated]
    refine ite (bind peek fun t => bind (report t excess) fun _ => ?_) ?_
    all_goals
      refine bind h fun n => bind (accept _) fun o => ?_
      cases o with
      | none => exact pure _
      | some _ => exact ih (done.push n)

theorem untilBrace {item : Parse (Option Node)} (h : Takes P 0 item) (turns : Nat)
    (done : Array Node) : Takes P 0 (untilBrace source item turns done) := by
  induction turns generalizing done with
  | zero => exact pure _
  | succ turns ih =>
    refine bind (nextIs _) fun _ => bind atEnd fun _ => ite (pure _) (bind h fun o => ?_)
    cases o with
    | none => exact ih done
    | some n => exact ih (done.push n)

/-- Which step it is may depend on where it begins. -/
theorem of_eq_at {x : Parse α} (h : ∀ p, ∃ y : Parse α, Takes P k y ∧ x p = y p) : Takes P k x := by
  refine ⟨fun p => ?_, fun p a ha => ?_⟩ <;> obtain ⟨y, hy, he⟩ := h p
  · rw [he]
    exact hy.advances p
  · rw [he] at ha ⊢
    exact hy.taken p a ha

/-- A token that is looked at and is no end mark is taken. -/
theorem peek_ite (hl : source.last.isEnd) {c : Token → Prop} [DecidablePred c]
    (hc : ∀ t : Token, c t → t.kind ≠ .eof) {f g : Token → Parse α}
    (hf : ∀ t, Takes (fun _ => true) 0 (f t))
    (hg : Takes (fun _ => true) 1 (Parse.peek source >>= g)) :
    Takes (fun _ => true) 1
      (Parse.peek source >>= fun t => if c t then Parse.advance source >>= f else g t) := by
  refine of_eq_at fun p => ?_
  by_cases h : c (p.pending.headD source.last)
  · have hone := expect_one hl (hc _ h) (fun _ _ => rfl) .missingExpression
    refine ⟨_, hone.first hf, ?_⟩
    simp only [bind_apply, peek_apply, if_pos h, advance_apply, expect_apply, if_true]
  · refine ⟨_, hg, ?_⟩
    simp only [bind_apply, peek_apply, if_neg h]

/-- Tokens of a sort are tokens. -/
theorem length_lt {x : Parse α} (h : Takes P 1 x) {p : Parser} {a : α} (ha : (x p).1 = .ok a) :
    (x p).2.pending.length < p.pending.length := by
  refine Nat.lt_of_le_of_ne (h.advances p).length_le fun he => ?_
  have hle := h.taken p a ha
  rw [(h.advances p).pending.eq_of_length he] at hle
  omega

end Takes

/-- Any token counts. -/
abbrev TakesOne (x : Parse α) : Prop := Takes (fun _ => true) 1 x

/-- A turn of a loop over operators ends the loop or takes a token. -/
theorem accept_length_lt {kinds : List Kind} {f : Option Token → Parse (Option Node)}
    (hn : f none = pure none) (hs : ∀ t, TakesOne (f (some t))) {p : Parser} {n : Node}
    (h : ((accept? source kinds >>= f) p).1 = .ok (some n)) :
    ((accept? source kinds >>= f) p).2.pending.length < p.pending.length := by
  rw [bind_apply, accept?_apply] at h ⊢
  by_cases hk : kinds.contains (p.pending.headD source.last).kind
  · rw [if_pos hk] at h ⊢
    exact Nat.lt_of_lt_of_le ((hs _).length_lt h) p.pending.tail_suffix.length_le
  · rw [if_neg hk] at h
    simp only [hn, pure_apply] at h
    cases h

/-- The rules of expressions with some frames. -/
structure ExpressionsTake (source : Source) (frames : Nat) : Prop where
  expression : TakesOne (expression source frames)
  assignment : TakesOne (assignment source frames)
  operand : ∀ levels, TakesOne (operand source frames levels)
  call : TakesOne (call source frames)
  finishCall : ∀ n, TakesOne (finishCall source frames n)
  primary : TakesOne (primary source frames)

namespace ExpressionsTake

variable {frames : Nat} (ih : ExpressionsTake source frames)
include ih

theorem assignment_succ : TakesOne (Parse.assignment source (frames + 1)) := by
  refine .first (ih.operand Level.all) fun target => .bind (.accept _) fun o => ?_
  cases o with
  | none => exact .pure _
  | some equals =>
    refine .bind (ih.assignment.mono (Nat.zero_le _)) fun value => ?_
    split
    · exact .pure _
    · exact .bind (.report _ _) fun _ => .pure _

theorem operand_succ (levels : List Level) : TakesOne (Parse.operand source (frames + 1) levels) := by
  cases levels with
  | nil =>
    refine .bind (.accept _) fun o => ?_
    cases o with
    | none => exact ih.call
    | some operator => exact .first (ih.operand []) fun right => .pure _
  | cons level tighter =>
    refine .first (ih.operand tighter) fun left => .extend (fun left => ?_) _ _
    refine .bind (.accept _) fun o => ?_
    cases o with
    | none => exact .pure _
    | some operator =>
      exact .bind ((ih.operand tighter).mono (Nat.zero_le _)) fun right => .pure _

theorem call_succ : TakesOne (Parse.call source (frames + 1)) := by
  refine .first ih.primary fun callee => .extend (fun callee => ?_) _ _
  refine .bind (.accept _) fun o => ?_
  cases o with
  | none => exact .pure _
  | some _ => exact .bind ((ih.finishCall callee).mono (Nat.zero_le _)) fun n => .pure _

variable (hl : source.last.isEnd)
include hl

theorem finishCall_succ (callee : Node) :
    TakesOne (Parse.finishCall source (frames + 1) callee) := by
  have hparen : ∀ arguments : List Node, TakesOne (do
      let paren ← Parse.expect source .rightParen (.missing ')' .arguments)
      return Node.call callee (.token paren) arguments) := fun arguments =>
    .first (.expect_one hl (by decide) (fun _ _ => rfl) _) fun _ => .pure _
  simp only [Parse.finishCall]
  refine .bind (.nextIs _) fun _ => .ite (hparen []) (.bind ?_ hparen)
  exact .separated (ih.expression.mono (Nat.zero_le _)) _ _ _

theorem primary_succ : TakesOne (Parse.primary source (frames + 1)) := by
  simp only [Parse.primary]
  refine .peek_ite hl (fun t h => ?_) (fun _ => .pure _) ?_
  · intro he
    simp [he, Kind.isLiteral] at h
  refine .peek_ite hl (fun t h => ?_) (fun _ => .pure _) ?_
  · rw [h]; decide
  refine .peek_ite hl (fun t h => ?_) (fun _ => ?_) (.bind .peek fun _ => .fail _)
  · rw [h]; decide
  · exact .bind (ih.expression.mono (Nat.zero_le _)) fun value => .bind (.expect _ _) fun _ => .pure _

end ExpressionsTake

theorem expressionsTake (hl : source.last.isEnd) (frames : Nat) :
    ExpressionsTake source frames := by
  induction frames with
  | zero => constructor <;> intros <;> exact .throw _
  | succ frames ih =>
    exact ⟨ih.assignment, ih.assignment_succ, ih.operand_succ, ih.call_succ,
      ih.finishCall_succ hl, ih.primary_succ hl⟩

/-- A statement has a semicolon or an opening brace. -/
abbrev TakesHinge (x : Parse α) : Prop := Takes Token.isHinge 1 x

section Clauses

variable (hl : source.last.isEnd) (frames : Nat)
include hl

theorem expression_takes : Takes P 0 (expression source frames) :=
  .of_advances (expressionsTake hl frames).expression.advances

theorem semicolon_takes (c : Complaint) : TakesHinge (expect source .semicolon c) :=
  .expect_one hl (by decide) (fun t h => by simp [Token.isHinge, h]) c

theorem varDeclaration_takes : TakesHinge (varDeclaration source frames) := by
  refine .bind (.expect _ _) fun name => .bind (.accept _) fun o => ?_
  cases o with
  | none => exact .bind (.pure _) fun _ => .first (semicolon_takes hl _) fun _ => .pure _
  | some _ =>
    exact .bind (expression_takes hl frames) fun _ => .first (semicolon_takes hl _) fun _ => .pure _

theorem expressionStatement_takes : TakesHinge (expressionStatement source frames) :=
  .bind (expression_takes hl frames) fun _ => .first (semicolon_takes hl _) fun _ => .pure _

theorem printStatement_takes : TakesHinge (printStatement source frames) :=
  .bind (expression_takes hl frames) fun _ => .first (semicolon_takes hl _) fun _ => .pure _

theorem returnStatement_takes (keyword : Token) :
    TakesHinge (returnStatement source frames keyword) := by
  have hclose : ∀ value, TakesHinge (do
      let _ ← expect source .semicolon (.missing ';' .returnValue)
      return Node.ret (.token keyword) value) := fun value =>
    .first (semicolon_takes hl _) fun _ => .pure _
  simp only [returnStatement]
  refine .bind .get fun p => .ite (.bind (.report _ _) fun _ => ?_) ?_
  all_goals
    exact .bind (.nextIs _) fun _ =>
      .ite (.bind (.pure _) hclose) (.bind (expression_takes hl frames) hclose)

omit hl in
theorem parameters_takes : Takes P 0 (parameters source) :=
  .bind (.nextIs _) fun _ => .ite (.pure _) (.separated (.map _ (.expect _ _)) _ _ _)

theorem forInitializer_takes : Takes P 0 (forInitializer source frames) := by
  have hvar := (varDeclaration_takes hl frames).advances
  have hvalue := (expressionStatement_takes hl frames).advances
  refine .bind (.accept _) fun o => .ite (.pure _) (.bind (.accept _) fun o => .ite ?_ ?_)
  · exact .bind (.of_advances hvar) fun _ => .pure _
  · exact .bind (.of_advances hvalue) fun _ => .pure _

theorem forClause_takes (closing : Kind) (c : Complaint) :
    Takes P 0 (forClause source frames closing c) := by
  have hclose : ∀ clause : Option Node, Takes P 0 (do
      let _ ← expect source closing c
      return clause) := fun clause => .bind (.expect _ _) fun _ => .pure _
  simp only [forClause]
  exact .bind (.nextIs _) fun _ =>
    .ite (.bind (.pure _) hclose) (.bind (.map _ (expression_takes hl frames)) hclose)

end Clauses

/-- A declaration with a result has taken a semicolon or an opening brace; one without a result has
taken a token, unless it was begun at the end. -/
structure DeclarationTakes (x : Parse (Option Node)) : Prop where
  advances : ∀ p, Advances p (x p).2
  some : ∀ p n, (x p).1 = .ok (some n) →
    (x p).2.pending.countP Token.isHinge < p.pending.countP Token.isHinge
  none : ∀ p, (x p).1 = .ok none → p.pending ≠ [] →
    (x p).2.pending.length < p.pending.length

/-- A step that was begun before the end and that is recovered from takes a token: the step itself, if
it came to the end, and otherwise the recovery. -/
theorem Advances.synchronize_length_lt {p q : Parser} (h : Advances p q) (hp : p.pending ≠ []) :
    q.synchronize.pending.length < p.pending.length := by
  cases hq : q.pending with
  | nil =>
    have hend : q.synchronize.pending = [] := by simp [Parser.synchronize, hq]
    rw [hend]
    exact List.length_pos_iff.2 hp
  | cons t rest =>
    have hsync : q.synchronize.pending = Parser.skip t rest := by simp [Parser.synchronize, hq]
    have hskip := (skip_suffix t rest).length_le
    have hle := h.length_le
    rw [hq, List.length_cons] at hle
    rw [hsync]
    omega

namespace DeclarationTakes

theorem recover {x : Parse Node} (h : TakesHinge x) : DeclarationTakes (recover x) := by
  refine ⟨fun p => ?_, fun p n hn => ?_, fun p hn hp => ?_⟩
  · have ha := h.advances p
    unfold Parse.recover
    cases hs : x p with
    | mk r q =>
      rw [hs] at ha
      rcases r with (_ | _) | n
      · exact ha.trans (.synchronize q)
      · exact ha
      · exact ha
  · have htaken := h.taken p n
    unfold Parse.recover at hn ⊢
    cases hs : x p with
    | mk r q =>
      rw [hs] at hn htaken
      rcases r with (_ | _) | m
      · cases hn
      · cases hn
      · cases hn
        exact htaken rfl
  · have ha := h.advances p
    unfold Parse.recover at hn ⊢
    cases hs : x p with
    | mk r q =>
      rw [hs] at hn ha
      rcases r with (_ | _) | m
      · exact ha.synchronize_length_lt hp
      · cases hn
      · cases hn

theorem throw (e : Abort) : DeclarationTakes (throw e) := ⟨fun p => .refl p, nofun, nofun⟩

/-- A declaration that is begun before the end and returns takes a token. -/
theorem length_lt {x : Parse (Option Node)} (h : DeclarationTakes x) {p : Parser}
    {o : Option Node} (ho : (x p).1 = .ok o) (hp : p.pending ≠ []) :
    (x p).2.pending.length < p.pending.length := by
  cases o with
  | none => exact h.none p ho hp
  | some n =>
    have hlt := h.some p n ho
    refine Nat.lt_of_le_of_ne (h.advances p).length_le fun he => ?_
    rw [(h.advances p).pending.eq_of_length he] at hlt
    exact Nat.lt_irrefl _ hlt

end DeclarationTakes

/-- A declaration that does not recover from its syntax errors. -/
def bareDeclaration (source : Source) (frames : Nat) : Parse Node := do
  if (← accept? source [.varWord]).isSome then varDeclaration source frames
  else if (← accept? source [.funWord]).isSome then functionDeclaration source frames
  else statement source frames

theorem declaration_eq (frames : Nat) :
    declaration source (frames + 1) = recover (bareDeclaration source frames) := rfl

/-- The rules of statements with some frames. -/
structure StatementsTake (source : Source) (frames : Nat) : Prop where
  declaration : DeclarationTakes (declaration source frames)
  functionDeclaration : TakesHinge (functionDeclaration source frames)
  block : Takes Token.isHinge 0 (block source frames)
  statement : TakesHinge (statement source frames)
  ifStatement : TakesHinge (ifStatement source frames)
  whileStatement : TakesHinge (whileStatement source frames)
  forStatement : ∀ keyword, TakesHinge (forStatement source frames keyword)

namespace StatementsTake

variable {frames : Nat} (hl : source.last.isEnd) (ih : StatementsTake source frames)
include hl ih

theorem bareDeclaration : TakesHinge (bareDeclaration source frames) := by
  refine .bind (.accept _) fun o => .ite (varDeclaration_takes hl frames) ?_
  exact .bind (.accept _) fun o => .ite ih.functionDeclaration ih.statement

theorem functionDeclaration_succ :
    TakesHinge (Parse.functionDeclaration source (frames + 1)) := by
  have hbrace : TakesHinge (expect source .leftBrace .missingBody) :=
    .expect_one hl (by decide) (fun t h => by simp [Token.isHinge, h]) _
  refine .bind (.expect _ _) fun name => .bind (.expect _ _) fun _ => ?_
  refine .bind parameters_takes fun params => .bind (.expect _ _) fun _ => .first hbrace fun _ => ?_
  exact .bind (.inFunction ih.block) fun body => .pure _

omit hl in
theorem block_succ : Takes Token.isHinge 0 (Parse.block source (frames + 1)) :=
  .bind (.untilBrace (.of_advances ih.declaration.advances) _ _) fun _ =>
    .bind (.expect _ _) fun _ => .pure _

theorem ifStatement_succ : TakesHinge (Parse.ifStatement source (frames + 1)) := by
  refine .bind (.expect _ _) fun _ => .bind (expression_takes hl frames) fun c => ?_
  refine .bind (.expect _ _) fun _ => .first ih.statement fun n => .bind (.accept _) fun o => ?_
  cases o with
  | none => exact .pure _
  | some _ => exact .bind (ih.statement.mono (Nat.zero_le _)) fun e => .pure _

theorem whileStatement_succ : TakesHinge (Parse.whileStatement source (frames + 1)) := by
  refine .bind (.expect _ _) fun _ => .bind (expression_takes hl frames) fun c => ?_
  exact .bind (.expect _ _) fun _ => .first ih.statement fun n => .pure _

theorem forStatement_succ (keyword : Token) :
    TakesHinge (Parse.forStatement source (frames + 1) keyword) := by
  refine .bind (.expect _ _) fun _ => .bind (forInitializer_takes hl frames) fun before => ?_
  refine .bind (forClause_takes hl frames _ _) fun c => ?_
  refine .bind (forClause_takes hl frames _ _) fun after => ?_
  exact .first ih.statement fun n => .pure _

theorem statement_succ : TakesHinge (Parse.statement source (frames + 1)) := by
  have hbrace : TakesHinge (expect source .leftBrace .missingBody) :=
    .expect_one hl (by decide) (fun t h => by simp [Token.isHinge, h]) _
  refine .of_eq_at fun p => ?_
  simp only [Parse.statement, bind_apply, peek_apply]
  generalize hkind : (p.pending.headD source.last).kind = kind
  split
  · exact ⟨_, .bind .advance fun _ => printStatement_takes hl frames, rfl⟩
  · -- A block has no semicolon of its own, but its brace.
    refine ⟨_, hbrace.first fun _ => .map Node.block ih.block, ?_⟩
    simp only [bind_apply, advance_apply, expect_apply, if_pos hkind]
  · exact ⟨_, .bind .advance fun _ => ih.ifStatement, rfl⟩
  · exact ⟨_, .bind .advance fun _ => ih.whileStatement, rfl⟩
  · exact ⟨_, .bind .advance fun _ => ih.forStatement _, rfl⟩
  · exact ⟨_, .bind .advance fun _ => returnStatement_takes hl frames _, rfl⟩
  · exact ⟨_, expressionStatement_takes hl frames, rfl⟩

end StatementsTake

theorem statementsTake (hl : source.last.isEnd) (frames : Nat) : StatementsTake source frames := by
  induction frames with
  | zero =>
    exact ⟨.throw _, .throw _, .throw _, .throw _, .throw _, .throw _, fun _ => .throw _⟩
  | succ frames ih =>
    exact ⟨.recover (ih.bareDeclaration hl), ih.functionDeclaration_succ hl, ih.block_succ,
      ih.statement_succ hl, ih.ifStatement_succ hl, ih.whileStatement_succ hl,
      ih.forStatement_succ hl⟩

/-- A declaration recovers from its syntax errors. -/
theorem declaration_ne_syntaxError (frames : Nat) (p : Parser) :
    (declaration source frames p).1 ≠ .error .syntaxError := by
  cases frames with
  | zero => rintro ⟨⟩
  | succ frames =>
    rw [declaration, recover]
    split <;> rintro ⟨⟩

/-- One turn of the loop over a program: a declaration, or else, when it is nested too deep, a report
at its first token. -/
def programTurn (source : Source) (frames : Nat) (first : Token) (p : Parser) :
    Option Node × Parser :=
  match declaration source frames p with
  | (.ok o, p) => (o, p)
  | (.error .exhausted, p) => (none, (p.report (.at first .tooMuchNesting)).synchronize)
  | (.error .syntaxError, p) => (none, p)

theorem programOnto_nil {frames turns : Nat} {done : Array Node} {p : Parser} (hq : p.pending = []) :
    programOnto source frames turns done p = (done, p) := by
  cases turns with
  | zero => rfl
  | succ turns => rw [programOnto, hq]

theorem programOnto_cons {frames turns : Nat} {done : Array Node} {p : Parser} {first : Token}
    {rest : List Token} (hq : p.pending = first :: rest) :
    programOnto source frames (turns + 1) done p =
      programOnto source frames turns
        ((programTurn source frames first p).1.elim done done.push)
        (programTurn source frames first p).2 := by
  rw [programOnto_succ hq, programTurn]
  rcases declaration source frames p with ⟨(_ | _) | _ | n, q⟩ <;> rfl

section Turns

variable (hl : source.last.isEnd) (frames : Nat) (first : Token) (p : Parser)
include hl

theorem programTurn_advances : Advances p (programTurn source frames first p).2 := by
  have ha := (statementsTake hl frames).declaration.advances p
  unfold programTurn
  cases hs : declaration source frames p with
  | mk r q =>
    rw [hs] at ha
    rcases r with (_ | _) | o
    · exact ha
    · exact (ha.trans (.report q _)).trans (.synchronize _)
    · exact ha

/-- A turn that is begun before the end takes a token, also one in which the nesting is too deep. -/
theorem programTurn_length_lt (hp : p.pending ≠ []) :
    (programTurn source frames first p).2.pending.length < p.pending.length := by
  have hd := (statementsTake hl frames).declaration
  have ha := hd.advances p
  unfold programTurn
  cases hs : declaration source frames p with
  | mk r q =>
    have hlt : ∀ o, r = .ok o → q.pending.length < p.pending.length := by
      intro o ho
      have h := hd.length_lt (p := p) (o := o) (by rw [hs]; exact ho) hp
      rwa [hs] at h
    rw [hs] at ha
    rcases r with (_ | _) | o
    · exact absurd (congrArg Prod.fst hs) (declaration_ne_syntaxError frames p)
    · exact (ha.trans (.report q _)).synchronize_length_lt hp
    · exact hlt o rfl

end Turns

end Parse

end Lox
