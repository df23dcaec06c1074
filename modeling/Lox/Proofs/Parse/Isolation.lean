import Lox.Proofs.Parse.Seams
import Mathlib.Data.List.TakeWhile

/-!
Malformed statements and what follows them. Main statement: a statement without blocks that raises a
syntax error at one of its tokens is dropped up to its semicolon, and what follows is parsed as if it
stood alone.
-/

set_option autoImplicit false

namespace Lox

/-- The complaints after which the parse goes on at the next statement. All others are made in
passing. -/
def Complaint.unwinds : Complaint → Bool
  | .missing _ _ | .missingName _ | .missingBody | .missingExpression => true
  | _ => false

namespace Parse

variable {α β : Type} {source : Source}

/-- Nothing is reported on the way but complaints in passing. -/
def Quiet (p q : Parser) : Prop :=
  ∃ ds, q.diagnostics.toList = p.diagnostics.toList ++ ds ∧ ∀ d ∈ ds, d.complaint.unwinds = false

namespace Quiet

theorem refl (p : Parser) : Quiet p p := ⟨[], by simp, by simp⟩

theorem trans {a b c : Parser} (h : Quiet a b) (h' : Quiet b c) : Quiet a c := by
  obtain ⟨ds, he, hds⟩ := h
  obtain ⟨ds', he', hds'⟩ := h'
  refine ⟨ds ++ ds', by rw [he', he, List.append_assoc], List.forall_mem_append.2 ⟨hds, hds'⟩⟩

theorem report (p : Parser) {d : Diagnostic} (hd : d.complaint.unwinds = false) :
    Quiet p (p.report d) :=
  ⟨[d], by simp [Parser.report], by simpa using hd⟩

theorem not_mem {p q : Parser} (h : Quiet p q) (hp : p.diagnostics = #[]) {d : Diagnostic}
    (hd : d ∈ q.diagnostics) : d.complaint.unwinds = false := by
  obtain ⟨ds, he, hds⟩ := h
  refine hds d ?_
  rw [hp] at he
  rw [← Array.mem_toList_iff, he] at hd
  simpa using hd

end Quiet

/-- No block can begin. -/
def Blockless (p : Parser) : Prop := ∀ t ∈ p.pending, t.kind ≠ .leftBrace

theorem Blockless.headD (hl : source.last.isEnd) {p : Parser} (hp : Blockless p) :
    (p.pending.headD source.last).kind ≠ .leftBrace := by
  cases hq : p.pending with
  | nil =>
    have hlast : source.last.kind = .eof := by simpa [Token.isEnd] using hl
    rw [List.headD_nil, hlast]
    decide
  | cons t rest => exact hp t (by simp [hq])

/-- What a step reports: complaints in passing and, if it ends in a syntax error, last of all the
complaint that raised it, which is about the token that is next. -/
structure ComplainsAt (source : Source) (x : Parse α) (p : Parser) : Prop where
  advances : Advances p (x p).2
  passing : (x p).1 ≠ .error .syntaxError → Quiet p (x p).2
  raised : (x p).1 = .error .syntaxError → ∃ q c, Quiet p q ∧ c.unwinds = true ∧
    (x p).2 = q.report (.at (q.pending.headD source.last) c)

theorem ComplainsAt.congr {x y : Parse α} {p : Parser} (h : ComplainsAt source y p)
    (he : x p = y p) : ComplainsAt source x p := by
  obtain ⟨ha, hp, hr⟩ := h
  rw [← he] at ha hp hr
  exact ⟨ha, hp, hr⟩

/-- The same wherever no block can begin. -/
def Complains (source : Source) (x : Parse α) : Prop := ∀ p, Blockless p → ComplainsAt source x p

namespace Complains

theorem of_ok {x : Parse α} (h : ∀ p, Blockless p → Advances p (x p).2 ∧ Quiet p (x p).2 ∧
    (x p).1 ≠ .error .syntaxError) : Complains source x := fun p hp =>
  ⟨(h p hp).1, fun _ => (h p hp).2.1, fun he => absurd he (h p hp).2.2⟩

theorem pure (a : α) : Complains source (pure a : Parse α) :=
  of_ok fun p _ => ⟨.refl p, .refl p, nofun⟩

theorem exhausted : Complains source (throw .exhausted : Parse α) :=
  of_ok fun p _ => ⟨.refl p, .refl p, nofun⟩

theorem peek : Complains source (peek source) := of_ok fun p _ => ⟨.refl p, .refl p, nofun⟩

theorem nextIs (kind : Kind) : Complains source (nextIs source kind) :=
  of_ok fun p _ => ⟨.refl p, .refl p, nofun⟩

theorem get : Complains source (MonadState.get : Parse Parser) :=
  of_ok fun p _ => ⟨.refl p, .refl p, nofun⟩

theorem advance : Complains source (advance source) :=
  of_ok fun p _ => ⟨.drop p.pending.tail_suffix, .refl p, nofun⟩

theorem report (t : Token) {c : Complaint} (hc : c.unwinds = false) :
    Complains source (report t c) :=
  of_ok fun p _ => ⟨.report p _, .report p hc, nofun⟩

theorem fail {c : Complaint} (hc : c.unwinds = true) :
    Complains source (Parse.fail source c : Parse α) := fun p _ =>
  ⟨.report p _, fun he => absurd rfl he, fun _ => ⟨p, c, .refl p, hc, rfl⟩⟩

theorem bind {x : Parse α} {f : α → Parse β} (hx : Complains source x)
    (hf : ∀ a, Complains source (f a)) : Complains source (x >>= f) := by
  intro p hp
  obtain ⟨ha, hpass, hraise⟩ := hx p hp
  cases hs : x p with
  | mk r q =>
    rw [hs] at ha hpass hraise
    cases r with
    | error e =>
      have he : (x >>= f) p = (.error e, q) := by rw [bind_apply, hs]
      refine ⟨by rwa [he], fun hne => ?_, fun heq => ?_⟩ <;> rw [he] at *
      · exact hpass fun h => hne (congrArg _ (Except.error.inj h))
      · exact hraise (congrArg _ (Except.error.inj heq))
    | ok a =>
      have he : (x >>= f) p = f a q := by rw [bind_apply, hs]
      obtain ⟨ha', hpass', hraise'⟩ := hf a q fun t ht => hp t (ha.pending.subset ht)
      have hq : Quiet p q := hpass nofun
      refine ⟨by rw [he]; exact ha.trans ha', fun hne => ?_, fun heq => ?_⟩ <;> rw [he] at *
      · exact hq.trans (hpass' hne)
      · obtain ⟨m, c, hm, h⟩ := hraise' heq
        exact ⟨m, c, hq.trans hm, h⟩

theorem ite {c : Prop} [Decidable c] {x y : Parse α} (hx : Complains source x)
    (hy : Complains source y) : Complains source (if c then x else y) := by
  split
  · exact hx
  · exact hy

theorem map {x : Parse α} (f : α → β) (h : Complains source x) : Complains source (f <$> x) := by
  rw [map_eq_pure_bind]
  exact h.bind fun a => pure (f a)

theorem accept (kinds : List Kind) : Complains source (accept? source kinds) :=
  bind peek fun _ => ite (bind advance fun t => pure (some t)) (pure none)

theorem expect (kind : Kind) {c : Complaint} (hc : c.unwinds = true) :
    Complains source (expect source kind c) :=
  bind (nextIs kind) fun _ => ite advance (fail hc)

/-- Where no block can begin, a body is missing. -/
theorem expectBrace (hl : source.last.isEnd) (f : Token → Parse α) :
    Complains source (Parse.expect source .leftBrace .missingBody >>= f) := by
  refine fun p hp => (fail rfl p hp).congr (y := Parse.fail source .missingBody) ?_
  rw [bind_apply, expect_apply, if_neg (hp.headD hl), fail_apply]

/-- The next token begins no block. -/
theorem peekOther (hl : source.last.isEnd) {f : Token → Parse α}
    (hf : ∀ t : Token, t.kind ≠ .leftBrace → Complains source (f t)) :
    Complains source (Parse.peek source >>= f) := fun p hp =>
  (hf _ (hp.headD hl) p hp).congr (by rw [bind_apply, peek_apply])

theorem extend {step : Node → Parse (Option Node)} (h : ∀ n, Complains source (step n))
    (turns : Nat) (n : Node) : Complains source (extend step turns n) := by
  induction turns generalizing n with
  | zero => exact pure n
  | succ turns ih =>
    refine bind (h n) fun o => ?_
    cases o with
    | none => exact pure n
    | some n => exact ih n

theorem separated {item : Parse Node} (h : Complains source item) {excess : Complaint}
    (he : excess.unwinds = false) (turns : Nat) (done : Array Node) :
    Complains source (Parse.separated source excess item turns done) := by
  induction turns generalizing done with
  | zero => exact pure _
  | succ turns ih =>
    simp only [Parse.separated]
    refine ite (bind peek fun t => bind (report t he) fun _ => ?_) ?_
    all_goals
      refine bind h fun n => bind (accept _) fun o => ?_
      cases o with
      | none => exact pure _
      | some _ => exact ih (done.push n)

end Complains

/-- The rules of expressions with some frames. -/
structure ExpressionsComplain (source : Source) (frames : Nat) : Prop where
  expression : Complains source (expression source frames)
  assignment : Complains source (assignment source frames)
  operand : ∀ levels, Complains source (operand source frames levels)
  call : Complains source (call source frames)
  finishCall : ∀ n, Complains source (finishCall source frames n)
  primary : Complains source (primary source frames)

namespace ExpressionsComplain

variable {frames : Nat} (ih : ExpressionsComplain source frames)
include ih

theorem assignment_succ : Complains source (Parse.assignment source (frames + 1)) := by
  refine .bind (ih.operand Level.all) fun target => .bind (.accept _) fun o => ?_
  cases o with
  | none => exact .pure _
  | some equals =>
    refine .bind ih.assignment fun value => ?_
    split
    · exact .pure _
    · exact .bind (.report _ rfl) fun _ => .pure _

theorem operand_succ (levels : List Level) :
    Complains source (Parse.operand source (frames + 1) levels) := by
  cases levels with
  | nil =>
    refine .bind (.accept _) fun o => ?_
    cases o with
    | none => exact ih.call
    | some operator => exact .bind (ih.operand []) fun right => .pure _
  | cons level tighter =>
    refine .bind (ih.operand tighter) fun left => .extend (fun left => ?_) _ _
    refine .bind (.accept _) fun o => ?_
    cases o with
    | none => exact .pure _
    | some operator => exact .bind (ih.operand tighter) fun right => .pure _

theorem call_succ : Complains source (Parse.call source (frames + 1)) := by
  refine .bind ih.primary fun callee => .extend (fun callee => ?_) _ _
  refine .bind (.accept _) fun o => ?_
  cases o with
  | none => exact .pure _
  | some _ => exact .bind (ih.finishCall callee) fun n => .pure _

theorem finishCall_succ (callee : Node) :
    Complains source (Parse.finishCall source (frames + 1) callee) := by
  have hparen : ∀ arguments : List Node, Complains source (do
      let paren ← Parse.expect source .rightParen (.missing ')' .arguments)
      return Node.call callee (.token paren) arguments) := fun arguments =>
    .bind (.expect _ rfl) fun _ => .pure _
  simp only [Parse.finishCall]
  refine .bind (.nextIs _) fun _ => .ite (hparen []) (.bind ?_ hparen)
  exact .separated ih.expression rfl _ _

theorem primary_succ : Complains source (Parse.primary source (frames + 1)) := by
  refine .bind .peek fun t => .ite ?_ (.ite ?_ (.ite ?_ (.fail rfl)))
  · exact .bind .advance fun _ => .pure _
  · exact .bind .advance fun _ => .pure _
  · exact .bind .advance fun _ => .bind ih.expression fun _ => .bind (.expect _ rfl) fun _ => .pure _

end ExpressionsComplain

theorem expressionsComplain (source : Source) (frames : Nat) :
    ExpressionsComplain source frames := by
  induction frames with
  | zero => constructor <;> intros <;> exact .exhausted
  | succ frames ih =>
    exact ⟨ih.assignment, ih.assignment_succ, ih.operand_succ, ih.call_succ, ih.finishCall_succ,
      ih.primary_succ⟩

section Clauses

variable (source) (frames : Nat)

theorem varDeclaration_complains : Complains source (varDeclaration source frames) := by
  have ih := (expressionsComplain source frames).expression
  refine .bind (.expect _ rfl) fun name => .bind (.accept _) fun o => ?_
  cases o with
  | none => exact .bind (.pure _) fun _ => .bind (.expect _ rfl) fun _ => .pure _
  | some _ => exact .bind ih fun _ => .bind (.expect _ rfl) fun _ => .pure _

theorem expressionStatement_complains : Complains source (expressionStatement source frames) :=
  .bind (expressionsComplain source frames).expression fun _ =>
    .bind (.expect _ rfl) fun _ => .pure _

theorem printStatement_complains : Complains source (printStatement source frames) :=
  .bind (expressionsComplain source frames).expression fun _ =>
    .bind (.expect _ rfl) fun _ => .pure _

theorem returnStatement_complains (keyword : Token) :
    Complains source (returnStatement source frames keyword) := by
  have ih := (expressionsComplain source frames).expression
  have hclose : ∀ value, Complains source (do
      let _ ← expect source .semicolon (.missing ';' .returnValue)
      return Node.ret (.token keyword) value) := fun value =>
    .bind (.expect _ rfl) fun _ => .pure _
  simp only [returnStatement]
  refine .bind .get fun p => .ite (.bind (.report _ rfl) fun _ => ?_) ?_
  all_goals
    exact .bind (.nextIs _) fun _ => .ite (.bind (.pure _) hclose) (.bind ih hclose)

theorem parameters_complains : Complains source (parameters source) :=
  .bind (.nextIs _) fun _ => .ite (.pure _) (.separated (.map _ (.expect _ rfl)) rfl _ _)

theorem forInitializer_complains : Complains source (forInitializer source frames) := by
  refine .bind (.accept _) fun o => .ite (.pure _) (.bind (.accept _) fun o => .ite ?_ ?_)
  · exact .bind (varDeclaration_complains source frames) fun _ => .pure _
  · exact .bind (expressionStatement_complains source frames) fun _ => .pure _

theorem forClause_complains (closing : Kind) {c : Complaint} (hc : c.unwinds = true) :
    Complains source (forClause source frames closing c) := by
  have ih := (expressionsComplain source frames).expression
  have hclose : ∀ clause : Option Node, Complains source (do
      let _ ← expect source closing c
      return clause) := fun clause => .bind (.expect _ hc) fun _ => .pure _
  simp only [forClause]
  exact .bind (.nextIs _) fun _ => .ite (.bind (.pure _) hclose) (.bind (.map _ ih) hclose)

end Clauses

/-- The rules of statements that can be met where no block can begin, with some frames. -/
structure StatementsComplain (source : Source) (frames : Nat) : Prop where
  functionDeclaration : Complains source (functionDeclaration source frames)
  statement : Complains source (statement source frames)
  ifStatement : Complains source (ifStatement source frames)
  whileStatement : Complains source (whileStatement source frames)
  forStatement : ∀ keyword, Complains source (forStatement source frames keyword)

namespace StatementsComplain

variable {frames : Nat}

theorem functionDeclaration_succ (hl : source.last.isEnd) :
    Complains source (Parse.functionDeclaration source (frames + 1)) := by
  refine .bind (.expect _ rfl) fun name => .bind (.expect _ rfl) fun _ => ?_
  refine .bind (parameters_complains source) fun params => .bind (.expect _ rfl) fun _ => ?_
  exact .expectBrace hl _

variable (ih : StatementsComplain source frames)
include ih

theorem ifStatement_succ : Complains source (Parse.ifStatement source (frames + 1)) := by
  have he := (expressionsComplain source frames).expression
  refine .bind (.expect _ rfl) fun _ => .bind he fun c => .bind (.expect _ rfl) fun _ => ?_
  refine .bind ih.statement fun n => .bind (.accept _) fun o => ?_
  cases o with
  | none => exact .pure _
  | some _ => exact .bind ih.statement fun e => .pure _

theorem whileStatement_succ : Complains source (Parse.whileStatement source (frames + 1)) := by
  have he := (expressionsComplain source frames).expression
  refine .bind (.expect _ rfl) fun _ => .bind he fun c => .bind (.expect _ rfl) fun _ => ?_
  exact .bind ih.statement fun n => .pure _

theorem forStatement_succ (keyword : Token) :
    Complains source (Parse.forStatement source (frames + 1) keyword) := by
  refine .bind (.expect _ rfl) fun _ => .bind (forInitializer_complains source frames) fun _ => ?_
  refine .bind (forClause_complains source frames _ rfl) fun c => ?_
  refine .bind (forClause_complains source frames _ rfl) fun after => ?_
  exact .bind ih.statement fun n => .pure _

theorem statement_succ (hl : source.last.isEnd) :
    Complains source (Parse.statement source (frames + 1)) := by
  simp only [Parse.statement]
  refine .peekOther hl fun t ht => ?_
  generalize t.kind = kind at ht
  split
  · exact .bind .advance fun _ => printStatement_complains source frames
  · exact absurd rfl ht
  · exact .bind .advance fun _ => ih.ifStatement
  · exact .bind .advance fun _ => ih.whileStatement
  · exact .bind .advance fun _ => ih.forStatement t
  · exact .bind .advance fun _ => returnStatement_complains source frames t
  · exact expressionStatement_complains source frames

end StatementsComplain

theorem statementsComplain (hl : source.last.isEnd) (frames : Nat) :
    StatementsComplain source frames := by
  induction frames with
  | zero => constructor <;> intros <;> exact .exhausted
  | succ frames ih =>
    exact ⟨StatementsComplain.functionDeclaration_succ hl, ih.statement_succ hl,
      ih.ifStatement_succ, ih.whileStatement_succ, ih.forStatement_succ⟩

theorem bareDeclaration_complains (hl : source.last.isEnd) (frames : Nat) :
    Complains source (bareDeclaration source frames) := by
  have ih := statementsComplain hl frames
  refine .bind (.accept _) fun o => .ite (varDeclaration_complains source frames) ?_
  exact .bind (.accept _) fun o => .ite ih.functionDeclaration ih.statement

end Parse

open Parse

/-- Tokens as a statement without blocks has them: the one semicolon is the last of them, and none but
the first begins a statement. -/
structure SimpleTokens (tokens : List Token) : Prop where
  noEnd : ∀ t ∈ tokens, t.kind ≠ .eof
  noBrace : ∀ t ∈ tokens, t.kind ≠ .leftBrace
  semicolon : ∃ body last, tokens = body ++ [last] ∧ last.kind = .semicolon ∧
    ∀ t ∈ body, t.kind ≠ .semicolon
  noStart : ∀ t ∈ tokens.tail, t.kind.startsStatement = false

/-- By itself the tokens raise a syntax error at one of them, and not only at their end. -/
def RaisesWithin (frames : Nat) (tokens : List Token) : Prop :=
  ∃ t ∈ tokens, ∃ c, c.unwinds = true ∧ .at t c ∈ (parse frames tokens).diagnostics

/-- After the semicolon nothing more is skipped. -/
theorem skip_past {before last : Token} {body ts : List Token} (hsplit : before :: ts = body ++ [last])
    (hlast : last.kind = .semicolon) (hbody : ∀ t ∈ body, t.kind ≠ .semicolon)
    (hstart : ∀ t ∈ ts, t.kind.startsStatement = false) (rest : List Token) :
    Parser.skip before (ts ++ rest) = rest := by
  induction ts generalizing before body with
  | nil =>
    obtain ⟨-, rfl⟩ := List.append_singleton_inj.1 ((List.nil_append [before]).trans hsplit)
    cases rest with
    | nil => rfl
    | cons t rest => simp [Parser.skip, hlast]
  | cons t ts ih =>
    obtain ⟨body, rfl⟩ : ∃ body', body = before :: body' := by
      cases body with
      | nil => simp at hsplit
      | cons b body' => exact ⟨body', by rw [(List.cons.inj hsplit).1]⟩
    have hbefore : before.kind ≠ .semicolon := hbody before List.mem_cons_self
    have ht : t.kind.startsStatement = false := hstart t List.mem_cons_self
    rw [List.cons_append, Parser.skip, if_neg (by simp [hbefore, ht])]
    exact ih (List.cons.inj hsplit).2 (fun u hu => hbody u (List.mem_cons_of_mem _ hu))
      fun u hu => hstart u (List.mem_cons_of_mem _ hu)

namespace SimpleTokens

variable {tokens : List Token}

theorem skip (h : SimpleTokens tokens) {t : Token} {ts : List Token} (hs : t :: ts <:+ tokens)
    (rest : List Token) : Parser.skip t (ts ++ rest) = rest := by
  obtain ⟨body, last, rfl, hlast, hbody⟩ := h.semicolon
  have hstart : ∀ u ∈ ts, u.kind.startsStatement = false := by
    obtain ⟨taken, htaken⟩ := hs
    refine fun u hu => h.noStart u ?_
    rw [← htaken]
    cases taken with
    | nil => exact hu
    | cons v taken => simp [hu]
  obtain hnil | ⟨body', hsplit, hsuffix⟩ := List.suffix_concat_iff.1 hs
  · cases hnil
  · exact skip_past hsplit hlast (fun u hu => hbody u (hsuffix.subset hu)) hstart rest

/-- Wherever the parse of the tokens stops, recovery ends behind them. -/
theorem synchronize (h : SimpleTokens tokens) {p : Parser} (hp : p.pending <:+ tokens) :
    p.synchronize.pending = [] := by
  cases hq : p.pending with
  | nil => simp [Parser.synchronize, hq]
  | cons t ts =>
    have hskip := h.skip (hq ▸ hp) []
    rw [List.append_nil] at hskip
    simp [Parser.synchronize, hq, hskip]

/-- A statement among the tokens takes them all. -/
theorem pending_eq_nil (h : SimpleTokens tokens) {ts : List Token} (hs : ts <:+ tokens)
    (hc : ts.countP Token.isHinge < tokens.countP Token.isHinge) : ts = [] := by
  obtain ⟨body, last, rfl, hlast, hbody⟩ := h.semicolon
  have hbody : body.countP Token.isHinge = 0 := by
    refine List.countP_eq_zero.2 fun t ht => ?_
    have hbrace := h.noBrace t (List.mem_append_left _ ht)
    simp [Token.isHinge, hbody t ht, hbrace]
  obtain hnil | ⟨body', rfl, -⟩ := List.suffix_concat_iff.1 hs
  · exact hnil
  · simp [Token.isHinge, hlast, hbody] at hc

end SimpleTokens

theorem synchronize_diagnostics (p : Parser) : p.synchronize.diagnostics = p.diagnostics := by
  unfold Parser.synchronize
  split <;> rfl

theorem Parser.ofTokens_eq {tokens : List Token} (h : ∀ t ∈ tokens, t.kind ≠ .eof) :
    Parser.ofTokens tokens = ⟨tokens, #[], 0⟩ := by
  have htake : tokens.takeWhile (!·.isEnd) = tokens :=
    List.takeWhile_eq_self_iff.2 fun t ht => by simpa [Token.isEnd] using h t ht
  rw [Parser.ofTokens, htake]

theorem parse_eq_programOnto (frames : Nat) {tokens : List Token}
    (h : ∀ t ∈ tokens, t.kind ≠ .eof) :
    parse frames tokens =
      ⟨(programOnto (.ofTokens tokens) frames (tokens.length + 1) #[] ⟨tokens, #[], 0⟩).1.toList,
        (programOnto (.ofTokens tokens) frames (tokens.length + 1) #[]
          ⟨tokens, #[], 0⟩).2.diagnostics.toList⟩ := by
  rw [parse, Parser.ofTokens_eq h]
  rfl

/-- If the first turn takes all tokens, it is the whole parse. -/
theorem parse_eq_turn {frames : Nat} {first : Token} {rest : List Token} {o : Option Node}
    {q : Parser} (h : ∀ t ∈ first :: rest, t.kind ≠ .eof)
    (hturn : programTurn (.ofTokens (first :: rest)) frames first ⟨first :: rest, #[], 0⟩ = (o, q))
    (hq : q.pending = []) :
    parse frames (first :: rest) = ⟨o.toList, q.diagnostics.toList⟩ := by
  rw [parse_eq_programOnto frames h, programOnto_cons rfl, hturn, programOnto_nil hq]
  cases o <;> rfl

/-- A diagnostic tells the end mark from other tokens. -/
theorem at_ne_at {t last : Token} {c c' : Complaint} (ht : t.kind ≠ .eof) (hl : last.isEnd) :
    Diagnostic.at t c ≠ .at last c' := by
  intro h
  have hspot := congrArg Diagnostic.spot h
  have hend : t.isEnd = false := by simpa [Token.isEnd] using ht
  simp [Diagnostic.at, hl, hend] at hspot

/-- Where a declaration raises an error, the turn goes on behind the tokens that are skipped. -/
theorem programTurn_of_raised {source : Source} {frames : Nat} {p q : Parser}
    (h : bareDeclaration source frames p = (.error .syntaxError, q)) (first : Token) :
    programTurn source (frames + 1) first p = (none, q.synchronize) := by
  rw [programTurn, declaration_eq, recover, h]

namespace RaisesWithin

variable {tokens : List Token} {frames : Nat} {q : Parser}

theorem ne_nil (h : RaisesWithin frames tokens) : tokens ≠ [] := by
  obtain ⟨t, ht, -⟩ := h
  exact List.ne_nil_of_mem ht

/-- An error that unwinds is not among complaints in passing. -/
theorem not_quiet (h : RaisesWithin frames tokens)
    (hq : (parse frames tokens).diagnostics = q.diagnostics.toList) :
    ¬ Quiet ⟨tokens, #[], 0⟩ q := by
  intro hquiet
  obtain ⟨t, -, c, hc, hmem⟩ := h
  rw [hq] at hmem
  have hnot : c.unwinds = false := hquiet.not_mem rfl (Array.mem_toList_iff.1 hmem)
  rw [hc] at hnot
  cases hnot

/-- At the end, the complaint would be about the end mark, and not about one of the tokens. -/
theorem pending_ne_nil {source : Source} (hl : source.last.isEnd) {c : Complaint}
    (h : RaisesWithin frames tokens) (hend : ∀ t ∈ tokens, t.kind ≠ .eof)
    (hquiet : Quiet ⟨tokens, #[], 0⟩ q)
    (hq : (parse frames tokens).diagnostics =
      (q.report (.at (q.pending.headD source.last) c)).diagnostics.toList) : q.pending ≠ [] := by
  intro hnil
  obtain ⟨t, ht, c', hc, hmem⟩ := h
  rw [hq, hnil, List.headD_nil] at hmem
  rcases Array.mem_push.1 (Array.mem_toList_iff.1 hmem) with hin | heq
  · have hnot : c'.unwinds = false := hquiet.not_mem rfl hin
    rw [hc] at hnot
    cases hnot
  · exact at_ne_at (hend t ht) hl heq

end RaisesWithin

namespace SimpleTokens

variable {tokens : List Token} {frames : Nat}

/-- Nesting that is too deep is a complaint in passing too. -/
theorem declaration_ne_exhausted (h : SimpleTokens tokens) (hr : RaisesWithin frames tokens)
    {q : Parser} (hs : q.pending <:+ tokens) (hq : Quiet ⟨tokens, #[], 0⟩ q) :
    declaration (.ofTokens tokens) frames ⟨tokens, #[], 0⟩ ≠ (.error .exhausted, q) := by
  intro he
  cases tokens with
  | nil => exact hr.ne_nil rfl
  | cons first rest =>
    have hturn : programTurn (.ofTokens (first :: rest)) frames first ⟨first :: rest, #[], 0⟩ =
        (none, (q.report (.at first .tooMuchNesting)).synchronize) := by rw [programTurn, he]
    have hparse := parse_eq_turn h.noEnd hturn (h.synchronize hs)
    rw [synchronize_diagnostics] at hparse
    exact hr.not_quiet (congrArg Parsed.diagnostics hparse) (hq.trans (.report q rfl))

/-- The first declaration of such tokens is the last one, and it is the one that raises the error. -/
theorem raised (h : SimpleTokens tokens) (hr : RaisesWithin frames tokens) :
    ∃ frames' q, frames = frames' + 1 ∧ q.pending ≠ [] ∧
      bareDeclaration (.ofTokens tokens) frames' ⟨tokens, #[], 0⟩ = (.error .syntaxError, q) ∧
      parse frames tokens = ⟨[], q.diagnostics.toList⟩ := by
  have hl := Source.last_isEnd tokens
  cases frames with
  | zero => exact absurd rfl (h.declaration_ne_exhausted hr (List.suffix_refl _) (.refl _))
  | succ frames =>
    have hcomplains := bareDeclaration_complains hl frames ⟨tokens, #[], 0⟩ h.noBrace
    have htakes := ((statementsTake hl frames).bareDeclaration hl).taken ⟨tokens, #[], 0⟩
    obtain ⟨hadvances, hpassing, hraised⟩ := hcomplains
    cases tokens with
    | nil => exact absurd rfl hr.ne_nil
    | cons first rest =>
      cases hb : bareDeclaration (.ofTokens (first :: rest)) frames ⟨first :: rest, #[], 0⟩ with
      | mk r q =>
        rw [hb] at hadvances hpassing hraised htakes
        rcases r with (_ | _) | n
        · obtain ⟨m, c, hm, -, rfl⟩ := hraised rfl
          have hparse := parse_eq_turn h.noEnd (programTurn_of_raised hb first)
            (h.synchronize hadvances.pending)
          rw [synchronize_diagnostics] at hparse
          have hnext : m.pending ≠ [] :=
            hr.pending_ne_nil hl h.noEnd hm (congrArg Parsed.diagnostics hparse)
          exact ⟨frames, m.report _, rfl, hnext, hb, hparse⟩
        · exact absurd (by rw [declaration_eq, recover, hb])
            (h.declaration_ne_exhausted hr hadvances.pending (hpassing (by rintro ⟨⟩)))
        · have hturn : programTurn (.ofTokens (first :: rest)) (frames + 1) first
              ⟨first :: rest, #[], 0⟩ = (some n, q) := by
            rw [programTurn, declaration_eq, recover, hb]
          have hend := h.pending_eq_nil hadvances.pending (htakes n rfl)
          have hparse := parse_eq_turn h.noEnd hturn hend
          exact absurd (hpassing (by rintro ⟨⟩))
            (hr.not_quiet (congrArg Parsed.diagnostics hparse))

end SimpleTokens

/-- The end mark of some tokens does not depend on other tokens before them. -/
theorem lastOf_append {before rest : List Token} (hb : ∀ t ∈ before, t.kind ≠ .eof)
    (hne : rest ≠ []) : Source.lastOf (before ++ rest) = Source.lastOf rest := by
  have hfind : before.find? Token.isEnd = none :=
    List.find?_eq_none.2 fun t ht => by simpa [Token.isEnd] using hb t ht
  have hlast : (before ++ rest).getLast? = rest.getLast? := by
    rw [List.getLast?_append, List.getLast?_eq_some_getLast hne, Option.some_or]
  unfold Source.lastOf
  rw [List.find?_append, hfind, Option.none_or, hlast]

/-- The tokens that are left are parsed as if they stood alone, below the reports that there are. -/
theorem programOnto_left (source : Source) {left : List Token} (frames : Nat) {turns : Nat}
    (ds : Array Diagnostic)
    (hlast : (Parser.ofTokens left).pending ≠ [] → source.last = Source.lastOf left)
    (hs : left.length < source.turns) (ht : left.length < turns) :
    let whole := programOnto source frames turns #[] { Parser.ofTokens left with diagnostics := ds }
    whole.1.toList = (parse frames left).statements ∧
      whole.2.diagnostics.toList = ds.toList ++ (parse frames left).diagnostics := by
  intro whole
  by_cases hnil : (Parser.ofTokens left).pending = []
  · have halone : parse frames left = ⟨[], []⟩ := by
      rw [parse, programOnto_nil hnil]
      rfl
    have hwhole : whole = (#[], { Parser.ofTokens left with diagnostics := ds }) := programOnto_nil hnil
    simp [halone, hwhole]
  · let s : Seam := ⟨.ofTokens left, source, ds, [], Source.last_isEnd left, hs⟩
    have hplace : s.place (.ofTokens left) = { Parser.ofTokens left with diagnostics := ds } := by
      simp [s, Seam.place, Parser.ofTokens]
    have hlength : (Parser.ofTokens left).pending.length < left.length + 1 :=
      Nat.lt_succ_of_le (List.takeWhile_sublist _).length_le
    have hjoins := programOnto_joins (s := s) ⟨rfl, hlast hnil⟩ frames ht #[] hlength (Nat.le_refl _)
    rw [hplace] at hjoins
    have hwhole : whole = (_, s.place _) := hjoins
    rw [hwhole]
    exact ⟨rfl, Array.toList_append⟩

/-- Up to the error nothing depends on what follows, and the recovery ends where that begins. -/
theorem SimpleTokens.programTurn_append {frames : Nat} {tokens : List Token} {q : Parser}
    (h : SimpleTokens tokens) (hq : q.pending ≠ [])
    (hb : bareDeclaration (.ofTokens tokens) frames ⟨tokens, #[], 0⟩ = (.error .syntaxError, q))
    (rest : List Token) (first : Token) :
    programTurn (.ofTokens (tokens ++ rest)) (frames + 1) first ⟨tokens ++ rest, #[], 0⟩ =
      (none, ⟨rest, q.diagnostics, 0⟩) := by
  have hl := Source.last_isEnd tokens
  have hadvances : Advances ⟨tokens, #[], 0⟩ q := by
    have ha := ((statementsTake hl frames).bareDeclaration hl).advances ⟨tokens, #[], 0⟩
    rwa [hb] at ha
  let s : Seam := ⟨.ofTokens tokens, .ofTokens (tokens ++ rest), #[], rest, hl,
    by simp [Source.ofTokens]⟩
  have hjoined : bareDeclaration (.ofTokens (tokens ++ rest)) frames ⟨tokens ++ rest, #[], 0⟩ =
      (.error .syntaxError, s.place q) := by
    have hplace : s.place ⟨tokens, #[], 0⟩ = ⟨tokens ++ rest, #[], 0⟩ := by simp [s, Seam.place]
    rw [← hplace]
    exact (statementsJoin s frames).bareDeclaration.eq (Nat.lt_succ_self _) hb (.inl hq)
  obtain ⟨t, ts, hpending⟩ := List.exists_cons_of_ne_nil hq
  have hskip := h.skip (hpending ▸ hadvances.pending) rest
  have hsync : (s.place q).synchronize = ⟨rest, q.diagnostics, 0⟩ := by
    simp [Parser.synchronize, Seam.place, s, hpending, hskip, hadvances.functionDepth]
  rw [programTurn_of_raised hjoined, hsync]

/-- A malformed statement is dropped with its reports, and nothing else changes. -/
theorem parse_append {frames : Nat} {tokens rest : List Token} (h : SimpleTokens tokens)
    (hr : RaisesWithin frames tokens) (hrest : ∀ t ∈ rest, t.kind ≠ .eof) :
    parse frames (tokens ++ rest) = ⟨(parse frames rest).statements,
      (parse frames tokens).diagnostics ++ (parse frames rest).diagnostics⟩ := by
  obtain ⟨frames, q, rfl, hq, hb, hparse⟩ := h.raised hr
  have hall : ∀ t ∈ tokens ++ rest, t.kind ≠ .eof := List.forall_mem_append.2 ⟨h.noEnd, hrest⟩
  have hlength : rest.length < (tokens ++ rest).length := by
    have hpos := List.length_pos_iff.2 hr.ne_nil
    rw [List.length_append]
    omega
  have hleft : Parser.ofTokens rest = ⟨rest, #[], 0⟩ := Parser.ofTokens_eq hrest
  obtain ⟨hstatements, hdiagnostics⟩ := programOnto_left (.ofTokens (tokens ++ rest)) (frames + 1)
    q.diagnostics (fun hne => lastOf_append h.noEnd (by rwa [hleft] at hne))
    (Nat.lt_succ_of_lt hlength) hlength
  rw [hleft] at hstatements hdiagnostics
  cases tokens with
  | nil => exact absurd rfl hr.ne_nil
  | cons first others =>
    rw [parse_eq_programOnto _ hall, List.cons_append, programOnto_cons rfl,
      ← List.cons_append, h.programTurn_append hq hb rest first, hparse, Option.elim_none,
      hstatements, hdiagnostics]

/-- Whatever follows them, malformed statements without blocks leave nothing but their reports: what is
parsed of the rest, and what is reported about it, is as if it stood alone. -/
theorem malformed_statements_isolated {frames : Nat} {malformed : List (List Token)}
    {rest : List Token}
    (h : ∀ tokens ∈ malformed, SimpleTokens tokens ∧ RaisesWithin frames tokens)
    (hrest : ∀ t ∈ rest, t.kind ≠ .eof) :
    parse frames (malformed.flatten ++ rest) = ⟨(parse frames rest).statements,
      malformed.flatMap (fun tokens => (parse frames tokens).diagnostics) ++
        (parse frames rest).diagnostics⟩ := by
  induction malformed with
  | nil => rfl
  | cons tokens malformed ih =>
    obtain ⟨hhere, hthere⟩ := List.forall_mem_cons.1 h
    have hnext : ∀ t ∈ malformed.flatten ++ rest, t.kind ≠ .eof := by
      refine List.forall_mem_append.2 ⟨fun t ht => ?_, hrest⟩
      obtain ⟨tokens', hmem, ht⟩ := List.mem_flatten.1 ht
      exact (hthere tokens' hmem).1.noEnd t ht
    rw [List.flatten_cons, List.append_assoc, parse_append hhere.1 hhere.2 hnext, ih hthere,
      List.flatMap_cons, List.append_assoc]

/-- A declaration without a name and a `print` without a value. -/
def namelessTokens : List Token :=
  [.varWord, .equal, .nilWord, .semicolon].map fun k => ⟨k, .null, .null, 1⟩

def valuelessTokens : List Token := [.printWord, .semicolon].map fun k => ⟨k, .null, .null, 2⟩

def printNilTokens : List Token :=
  [.printWord, .nilWord, .semicolon].map fun k => ⟨k, .null, .null, 3⟩

theorem malformed_statements_isolated_twoErrors :
    (∀ tokens ∈ [namelessTokens, valuelessTokens],
      SimpleTokens tokens ∧ RaisesWithin 15 tokens) ∧
    parse 15 ([namelessTokens, valuelessTokens].flatten ++ printNilTokens) =
      ⟨[.print (.literal (.token ⟨.nilWord, .null, .null, 3⟩))],
        [.at ⟨.equal, .null, .null, 1⟩ (.missingName .variable),
          .at ⟨.semicolon, .null, .null, 2⟩ .missingExpression]⟩ := by
  have hnameless : SimpleTokens namelessTokens ∧ RaisesWithin 15 namelessTokens := by
    refine ⟨⟨by decide, by decide, ⟨namelessTokens.dropLast, _, rfl, rfl, by decide⟩, by decide⟩, ?_⟩
    exact ⟨⟨.equal, .null, .null, 1⟩, by simp [namelessTokens], .missingName .variable, rfl,
      List.mem_singleton.2 rfl⟩
  have hvalueless : SimpleTokens valuelessTokens ∧ RaisesWithin 15 valuelessTokens := by
    refine ⟨⟨by decide, by decide, ⟨valuelessTokens.dropLast, _, rfl, rfl, by decide⟩, by decide⟩, ?_⟩
    exact ⟨⟨.semicolon, .null, .null, 2⟩, by simp [valuelessTokens], .missingExpression, rfl,
      List.mem_singleton.2 rfl⟩
  have hall : ∀ tokens ∈ [namelessTokens, valuelessTokens],
      SimpleTokens tokens ∧ RaisesWithin 15 tokens :=
    List.forall_mem_cons.2 ⟨hnameless, List.forall_mem_singleton.2 hvalueless⟩
  exact ⟨hall, (malformed_statements_isolated hall (by decide)).trans rfl⟩

end Lox
