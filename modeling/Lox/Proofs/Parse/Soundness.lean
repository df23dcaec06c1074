import Lox.Proofs.Parse.Yields

/-!
Soundness of the parse: a rule of the parser that reports nothing has taken a phrase of the grammar
and gives its tree.
-/

set_option autoImplicit false

namespace Lox

namespace Grammar

/-- The levels that an operand of a rank is parsed with. -/
def Rank.levels : Rank → List Level
  | or => Level.all
  | and => Level.all.drop 1
  | equality => Level.all.drop 2
  | comparison => Level.all.drop 3
  | term => Level.all.drop 4
  | factor => Level.all.drop 5
  | _ => []

/-- The ranks that operands are parsed at. -/
def Rank.isOperand (rank : Rank) : Prop := rank.operators ≠ [] ∨ rank = .unary

theorem Rank.levels_eq {rank : Rank} (hi : rank.operators ≠ []) :
    ∃ next level, rank.tighter? = some next ∧ next.isOperand ∧ rank.levels = level :: next.levels ∧
      level.operators = rank.operators ∧ level.build = rank.join := by
  cases rank <;> first
    | exact absurd rfl hi
    | exact ⟨_, _, rfl, by simp [isOperand, operators], rfl, rfl, rfl⟩

theorem Rank.eof_notMem_operators (rank : Rank) : Kind.eof ∉ rank.operators := by
  cases rank <;> decide

/-- A variable is an expression as a bare name only. -/
theorem Phrase.variable_inv {rank : Rank} {ts : List Token} {n name : Node}
    (hn : n = .variable name) : Phrase rank ts n → ∃ t, ts = [t] ∧ t.kind = .identifier ∧
      name = .token t
  | .tighter _ h => h.variable_inv hn
  | .«variable» ht => ⟨_, rfl, ht, by simpa using hn.symm⟩
  | @Phrase.joined rank _ _ _ _ _ _ _ _ _ _ => by cases rank <;> simp [Rank.join] at hn
  | .assign .. | .unary .. | .bareCall .. | .call .. | .literal _ | .grouping .. => by
    simp at hn

theorem isLiteral_iff {k : Kind} : k.isLiteral ↔ k ∈ literals := by
  cases k <;> decide

end Grammar

theorem Node.forLoop_eq (keyword : Token) (before c after : Option Node) (n : Node) :
    Node.forLoop keyword before c after n = .block (before.toList ++
      [.whileDo (c.getD (.literal (.token ⟨.trueWord, .text "true", .null, keyword.line⟩)))
        (.block (n :: after.toList.map .expression))]) := by
  cases after <;> rfl

namespace Parse

open Grammar

/-- The rules of expressions with some frames yield expressions. -/
structure ExpressionsSound (source : Source) (frames : Nat) : Prop where
  expression : ∀ fn,
    Yields source.turns fn (fun ts n _ => Expression ts n) (expression source frames)
  assignment : ∀ fn,
    Yields source.turns fn (fun ts n _ => Expression ts n) (assignment source frames)
  operand : ∀ fn rank, rank.isOperand →
    Yields source.turns fn (fun ts n _ => Phrase rank ts n) (operand source frames rank.levels)
  call : ∀ fn, Yields source.turns fn (fun ts n _ => Phrase .call ts n) (call source frames)
  finishCall : ∀ fn callee,
    Yields source.turns fn (fun ts n _ => CallEnd callee ts n) (finishCall source frames callee)
  primary : ∀ fn,
    Yields source.turns fn (fun ts n _ => Phrase .primary ts n) (primary source frames)

variable {source : Source} {frames : Nat} {fn : Bool}

namespace ExpressionsSound

theorem assignment_succ (hl : source.last.isEnd) (ih : ExpressionsSound source frames) :
    Yields source.turns fn (fun ts n _ => Expression ts n)
      (Parse.assignment source (frames + 1)) := by
  have hop : Rank.isOperand .or := .inl (by decide)
  have htop {ts n} (h : Phrase .or ts n) : Expression ts n := .tighter rfl h
  simp only [Parse.assignment]
  refine (ih.operand fn .or hop).bind fun target => ?_
  refine .accept hl (by decide) (.pure fun _ _ ts h => by simpa using htop h) fun equals he => ?_
  refine ((ih.assignment fn).weaken (Nat.sub_le _ _)).bind fun value => ?_
  split
  next name =>
    refine .pure fun _ us hu ts ht => ?_
    obtain ⟨t, rfl, hk, rfl⟩ := (htop ht).variable_inv rfl
    simpa using Phrase.assign hk (by simpa using he) hu
  next => exact .report _ _ (.pure (L := fun _ _ _ => True) fun _ => trivial)

theorem operand_infix (hl : source.last.isEnd) (ih : ExpressionsSound source frames) {rank : Rank}
    (hi : rank.operators ≠ []) :
    Yields source.turns fn (fun ts n _ => Phrase rank ts n)
      (Parse.operand source (frames + 1) rank.levels) := by
  obtain ⟨next, level, hr, hnext, hlevels, hops, hbuild⟩ := Rank.levels_eq hi
  rw [hlevels]
  simp only [Parse.operand, hops, hbuild]
  refine (ih.operand fn next hnext).bind fun left =>
    (Yields.extend (S := Segment rank next) (fun left => ?_) _ left).mono ?_
  · refine .accept hl rank.eof_notMem_operators (.pure fun _ _ => rfl) fun op ho => ?_
    refine ((ih.operand fn next hnext).weaken (Nat.sub_le _ _)).bind fun right => .pure ?_
    exact fun _ us hu => by simpa using Segment.mk ho hu
  · exact fun vs n _ hc us hu => (phrase_infix_iff hr hi).2 ⟨us, vs, left, rfl, hu, hc⟩

theorem operand_unary (hl : source.last.isEnd) (ih : ExpressionsSound source frames) :
    Yields source.turns fn (fun ts n _ => Phrase .unary ts n)
      (Parse.operand source (frames + 1) []) := by
  simp only [Parse.operand]
  refine .accept hl (by decide) ((ih.call fn).mono fun ts n _ h _ => .tighter rfl h) fun op ho => ?_
  refine ((ih.operand fn .unary (.inr rfl)).weaken (Nat.sub_le _ _)).bind fun right => .pure ?_
  exact fun _ us hu => by simpa using Phrase.unary (by simpa using ho) hu

theorem call_succ (hl : source.last.isEnd) (ih : ExpressionsSound source frames) :
    Yields source.turns fn (fun ts n _ => Phrase .call ts n) (Parse.call source (frames + 1)) := by
  simp only [Parse.call]
  refine (ih.primary fn).bind fun callee =>
    (Yields.extend (S := CallSegment) (fun callee => ?_) _ callee).mono ?_
  · refine .accept hl (by decide) (.pure fun _ _ => rfl) fun opening ho => ?_
    refine ((ih.finishCall fn callee).weaken (Nat.sub_le _ _)).bind fun n => .pure ?_
    exact fun _ us hu => by simpa using CallSegment.mk (by simpa using ho) hu
  · exact fun vs n _ hc us hu => phrase_call_iff.2 ⟨us, vs, callee, rfl, hu, hc⟩

theorem finishCall_succ (hl : source.last.isEnd) (ih : ExpressionsSound source frames)
    (callee : Node) : Yields source.turns fn (fun ts n _ => CallEnd callee ts n)
      (Parse.finishCall source (frames + 1) callee) := by
  simp only [Parse.finishCall]
  refine .nextIs fun closes => .ite (fun _ => ?_) fun _ => ?_
  · refine .bind (L := fun us ns _ => us = [] ∧ ns = []) (.pure fun _ => ⟨rfl, rfl⟩) fun ns => ?_
    refine .expect hl (by decide) fun closing hc => .pure ?_
    rintro _ us ⟨rfl, rfl⟩
    exact .bare hc
  · refine (Yields.separated hl (ih.expression fn) _ #[] (Nat.le_refl _)).bind fun ns => ?_
    refine .expect hl (by decide) fun closing hc => .pure ?_
    rintro _ us ⟨items, rfl, ha, hs⟩
    exact .full (by simpa using ha.arguments) hs hc

theorem primary_succ (hl : source.last.isEnd) (ih : ExpressionsSound source frames) :
    Yields source.turns fn (fun ts n _ => Phrase .primary ts n)
      (Parse.primary source (frames + 1)) := by
  simp only [Parse.primary]
  refine .peek hl (fun t ht => ?_) fun p t rest hp hlt hd => ?_
  · simpa [ht, Kind.isLiteral] using Yields.fail _ _
  · split
    next hk => exact .advance hp hlt hd (.pure fun _ => .literal (isLiteral_iff.1 hk))
    next =>
    split
    next hk => exact .advance hp hlt hd (.pure fun _ => .variable hk)
    next =>
    split
    next hk =>
      refine .advance hp hlt hd (.bind ((ih.expression fn).weaken (Nat.sub_le _ _)) fun value => ?_)
      refine .expect hl (by decide) fun closing hc => .pure ?_
      exact fun _ us hu => .grouping hk hu hc
    next => exact Yields.fail _ _ p hlt hd

end ExpressionsSound

theorem expressionsSound (hl : source.last.isEnd) (frames : Nat) :
    ExpressionsSound source frames := by
  induction frames with
  | zero =>
    refine ⟨fun _ => ?_, fun _ => ?_, fun _ rank _ => ?_, fun _ => ?_, fun _ _ => ?_,
      fun _ => ?_⟩ <;> exact .exhausted _
  | succ frames ih =>
    refine ⟨fun _ => ih.assignment _, fun _ => ih.assignment_succ hl, fun _ rank hr => ?_,
      fun _ => ih.call_succ hl, fun _ callee => ih.finishCall_succ hl callee,
      fun _ => ih.primary_succ hl⟩
    obtain hi | rfl := hr
    · exact ih.operand_infix hl hi
    · exact ih.operand_unary hl

section Clauses

variable (hl : source.last.isEnd)
include hl

theorem varDeclaration_sound :
    Yields source.turns fn (fun ts n _ => Variable ts n) (varDeclaration source frames) := by
  have ih := expressionsSound hl frames
  simp only [varDeclaration]
  refine .expect hl (by decide) fun name hn => .accept hl (by decide) ?_ fun equals he => ?_
  · refine .bind (L := fun ts n _ => ts = [] ∧ n = .missing) (.pure fun _ => ⟨rfl, rfl⟩) fun n => ?_
    refine .expect hl (by decide) fun semicolon hs => .pure ?_
    rintro _ us ⟨rfl, rfl⟩ _
    exact .bare hn hs
  · refine ((ih.expression fn).weaken (Nat.sub_le_of_le_add (by omega))).bind fun n => ?_
    refine .expect hl (by decide) fun semicolon hs => .pure ?_
    exact fun _ us hu => .initialized hn (by simpa using he) hu hs

theorem expressionStatement_sound : Yields source.turns fn
    (fun ts n _ => ExpressionStatement ts n) (expressionStatement source frames) := by
  have ih := expressionsSound hl frames
  simp only [expressionStatement]
  refine (ih.expression fn).bind fun n => .expect hl (by decide) fun semicolon hs => .pure ?_
  exact fun _ us hu => .mk hu hs

theorem printStatement_sound {keyword : Token} (hk : keyword.kind = .printWord) :
    Yields source.turns fn (fun ts n _ => Statement fn false (keyword :: ts) n)
      (printStatement source frames) := by
  have ih := expressionsSound hl frames
  simp only [printStatement]
  refine (ih.expression fn).bind fun n => .expect hl (by decide) fun semicolon hs => .pure ?_
  exact fun _ us hu => .print hk hu hs

theorem parameters_sound :
    Yields source.turns fn (fun ts ns _ => Parameters ts ns) (parameters source) := by
  simp only [parameters]
  refine .nextIs fun closes => .ite (fun _ => .pure fun _ => .none) fun _ => ?_
  have hone {c} : Yields source.turns fn (fun ts n _ => Named ts n)
      (Node.token <$> expect source .identifier c) := by
    rw [map_eq_pure_bind]
    exact .expect hl (by decide) fun t ht => .pure fun _ => ⟨t, rfl, ht, rfl⟩
  refine (Yields.separated hl hone _ #[] (Nat.le_refl _)).mono ?_
  rintro ts ns _ ⟨items, rfl, ha, hs⟩
  exact .some (by simpa using names_iff.2 ha) hs

theorem forInitializer_sound : Yields source.turns fn (fun ts o _ => Initializer ts o.toList)
    (forInitializer source frames) := by
  simp only [forInitializer]
  refine .accept hl (by decide) ?_ fun semicolon hs => ?_
  · refine .accept hl (by decide) ?_ fun keyword hk => ?_
    · refine (expressionStatement_sound hl).bind fun n => .pure ?_
      exact fun _ us hu _ _ => by simpa using Initializer.expression hu
    · refine ((varDeclaration_sound hl).weaken (Nat.sub_le _ _)).bind fun n => .pure ?_
      exact fun _ us hu _ => by simpa using Initializer.var (by simpa using hk) hu
  · exact .pure fun _ => .none (by simpa using hs)

theorem forClause_sound {closing : Kind} (hc : closing ≠ .eof) {c : Complaint} :
    Yields source.turns fn (fun ts o _ => ∃ us t, ts = us ++ [t] ∧ t.kind = closing ∧
      o.elim (us = []) (Expression us)) (forClause source frames closing c) := by
  have ih := expressionsSound hl frames
  simp only [forClause]
  refine .nextIs fun closes => .ite (fun _ => ?_) fun _ => ?_
  · refine .bind (L := fun ts o _ => ts = [] ∧ o = none) (.pure fun _ => ⟨rfl, rfl⟩) fun o => ?_
    refine .expect hl hc fun t ht => .pure ?_
    rintro _ us ⟨rfl, rfl⟩
    exact ⟨[], t, rfl, ht, rfl⟩
  · refine ((ih.expression fn).map (M := fun ts o _ => o.elim (ts = []) (Expression ts))
      fun ts n _ h => h).bind fun o => ?_
    exact .expect hl hc fun t ht => .pure fun _ us hu => ⟨us, t, rfl, ht, hu⟩

theorem returnStatement_sound {keyword : Token} (hk : keyword.kind = .returnWord) :
    Yields source.turns fn (fun ts n _ => Statement fn false (keyword :: ts) n)
      (returnStatement source frames keyword) := by
  have ih := expressionsSound hl frames
  have hrest : Yields source.turns fn (fun ts n _ => Statement true false (keyword :: ts) n) (do
      let value ← if ← nextIs source .semicolon then pure .missing else expression source frames
      let _ ← expect source .semicolon (.missing ';' .returnValue)
      return .ret (.token keyword) value) := by
    refine .nextIs fun closes => .ite (fun _ => ?_) fun _ => ?_
    · refine .bind (L := fun ts n _ => ts = [] ∧ n = .missing) (.pure fun _ => ⟨rfl, rfl⟩)
        fun n => ?_
      refine .expect hl (by decide) fun semicolon hs => .pure ?_
      rintro _ us ⟨rfl, rfl⟩
      exact .bareReturn hk hs
    · refine (ih.expression fn).bind fun n => .expect hl (by decide) fun semicolon hs => .pure ?_
      exact fun _ us hu => .return hk hu hs
  intro p hp hd
  by_cases hz : p.functionDepth = 0
  · refine (Yields.report (f := fun _ => _) keyword .strayReturn hrest p hp hd).congr ?_
    simp only [returnStatement, bind_apply, get_apply, hz, if_true]
  · obtain rfl : fn = true := hd.1 hz
    refine (hrest p hp hd).congr ?_
    simp only [returnStatement, bind_apply, get_apply, hz, if_false]

end Clauses

/-- A statement, and no `else` after it where it could go on with one. -/
def Closed (fn : Bool) (ts : List Token) (n : Node) (rest : List Token) : Prop :=
  ∃ dangling, Statement fn dangling ts n ∧ (dangling = true → Stops [.elseWord] rest)

/-- Declarations and a brace after them. -/
def Braced (fn : Bool) (ts : List Token) (ns : List Node) : Prop :=
  ∃ us closing, ts = us ++ [closing] ∧ Declarations fn us ns ∧ closing.kind = .rightBrace

theorem Closed.of_statement {ts rest : List Token} {n : Node} (h : Statement fn false ts n) :
    Closed fn ts n rest := ⟨false, h, by simp⟩

/-- The rules of statements with some frames yield statements. -/
structure StatementsSound (source : Source) (frames : Nat) : Prop where
  declaration : ∀ fn, Yields source.turns fn (fun ts o _ => ∃ n, o = some n ∧ Declaration fn ts n)
    (declaration source frames)
  functionDeclaration : ∀ fn keyword, keyword.kind = .funWord → Yields source.turns fn
    (fun ts n _ => Declaration fn (keyword :: ts) n) (functionDeclaration source frames)
  block : ∀ fn, Yields source.turns fn (fun ts ns _ => Braced fn ts ns) (block source frames)
  statement : ∀ fn, Yields source.turns fn (Closed fn) (statement source frames)
  ifStatement : ∀ fn keyword, keyword.kind = .ifWord → Yields source.turns fn
    (fun ts n rest => Closed fn (keyword :: ts) n rest) (ifStatement source frames)
  whileStatement : ∀ fn keyword, keyword.kind = .whileWord → Yields source.turns fn
    (fun ts n rest => Closed fn (keyword :: ts) n rest) (whileStatement source frames)
  forStatement : ∀ fn keyword, keyword.kind = .forWord → Yields source.turns fn
    (fun ts n rest => Closed fn (keyword :: ts) n rest) (forStatement source frames keyword)

theorem clause_condition (keyword : Token) {us : List Token} {o : Option Node}
    (h : o.elim (us = []) (Expression us)) : Condition keyword us
      (o.getD (.literal (.token ⟨.trueWord, .text "true", .null, keyword.line⟩))) := by
  cases o with
  | none =>
    obtain rfl : us = [] := h
    exact .none
  | some n => exact .some h

theorem clause_increment {us : List Token} {o : Option Node}
    (h : o.elim (us = []) (Expression us)) : Increment us (o.toList.map .expression) := by
  cases o with
  | none =>
    obtain rfl : us = [] := h
    exact .none
  | some n => exact .some h

namespace StatementsSound

variable (hl : source.last.isEnd) (ih : StatementsSound source frames)
include hl ih

theorem declaration_succ : Yields source.turns fn
    (fun ts o _ => ∃ n, o = some n ∧ Declaration fn ts n)
    (Parse.declaration source (frames + 1)) := by
  simp only [Parse.declaration]
  refine .recover (.accept hl (by decide) (.accept hl (by decide) ?_ fun keyword hk => ?_)
    fun keyword hk => ?_)
  · refine (ih.statement fn).mono ?_
    rintro ts n rest ⟨d, hs, _⟩ _ _
    exact .statement hs
  · refine ((ih.functionDeclaration fn keyword (by simpa using hk)).weaken (Nat.sub_le _ _)).mono ?_
    exact fun ts n _ h _ => h
  · refine ((varDeclaration_sound hl).weaken (Nat.sub_le _ _)).mono ?_
    exact fun ts n _ h => .var (by simpa using hk) h

theorem functionDeclaration_succ {keyword : Token} (hk : keyword.kind = .funWord) :
    Yields source.turns fn (fun ts n _ => Declaration fn (keyword :: ts) n)
      (Parse.functionDeclaration source (frames + 1)) := by
  simp only [Parse.functionDeclaration]
  refine .expect hl (by decide) fun name hn => .expect hl (by decide) fun opening ho => ?_
  refine ((parameters_sound hl).weaken (by omega)).bind fun params => ?_
  refine .expect hl (by decide) fun closing hc => .expect hl (by decide) fun brace hb => ?_
  refine (Yields.inFunction ((ih.block true).weaken (by omega))).bind fun body => .pure ?_
  rintro _ _ ⟨us, ending, rfl, hd, he⟩ ts hp
  simpa using Declaration.function hk hn ho hp hc hb hd he

theorem block_succ :
    Yields source.turns fn (fun ts ns _ => Braced fn ts ns) (Parse.block source (frames + 1)) := by
  simp only [Parse.block]
  refine (Yields.untilBrace (A := Declarations fn) .nil .cons (ih.declaration fn) _ #[]).bind
    fun ns => .expect hl (by decide) fun closing hc => .pure ?_
  rintro _ us ⟨items, rfl, hs⟩
  exact ⟨us, closing, by simp, by simpa using hs, hc⟩

theorem ifStatement_succ {keyword : Token} (hk : keyword.kind = .ifWord) : Yields source.turns fn
    (fun ts n rest => Closed fn (keyword :: ts) n rest)
    (Parse.ifStatement source (frames + 1)) := by
  have he := expressionsSound hl frames
  simp only [Parse.ifStatement]
  refine .expect hl (by decide) fun opening ho => ?_
  refine ((he.expression fn).weaken (by omega)).bind fun c => ?_
  refine .expect hl (by decide) fun closing hc => ?_
  refine ((ih.statement fn).weaken (by omega)).bind fun n => ?_
  refine .accept hl (by decide) (.pure ?_) fun other hother => ?_
  · rintro rest hstop us ⟨d, hn, _⟩ ts ht
    exact ⟨true, by simpa using Statement.ifThen hk ho ht hc hn, fun _ => hstop⟩
  · refine ((ih.statement fn).weaken (by omega)).bind fun e => .pure ?_
    rintro rest vs ⟨d, hm, hd⟩ us ⟨d', hn, hd'⟩ ts ht
    have hother' : other.kind = .elseWord := by simpa using hother
    obtain rfl : d' = false := by
      cases d' with
      | false => rfl
      | true => exact absurd hother (hd' rfl other rfl)
    exact ⟨d, by simpa using Statement.ifElse hk ho ht hc hn hother' hm, hd⟩

theorem whileStatement_succ {keyword : Token} (hk : keyword.kind = .whileWord) :
    Yields source.turns fn (fun ts n rest => Closed fn (keyword :: ts) n rest)
      (Parse.whileStatement source (frames + 1)) := by
  have he := expressionsSound hl frames
  simp only [Parse.whileStatement]
  refine .expect hl (by decide) fun opening ho => ?_
  refine ((he.expression fn).weaken (by omega)).bind fun c => ?_
  refine .expect hl (by decide) fun closing hc => ?_
  refine ((ih.statement fn).weaken (by omega)).bind fun n => .pure ?_
  rintro rest us ⟨d, hn, hd⟩ ts ht
  exact ⟨d, by simpa using Statement.whileDo hk ho ht hc hn, hd⟩

theorem forStatement_succ {keyword : Token} (hk : keyword.kind = .forWord) :
    Yields source.turns fn (fun ts n rest => Closed fn (keyword :: ts) n rest)
      (Parse.forStatement source (frames + 1) keyword) := by
  simp only [Parse.forStatement]
  refine .expect hl (by decide) fun opening ho => ?_
  refine ((forInitializer_sound hl).weaken (by omega)).bind fun before => ?_
  refine ((forClause_sound hl (by decide)).weaken (by omega)).bind fun c => ?_
  refine ((forClause_sound hl (by decide)).weaken (by omega)).bind fun after => ?_
  refine ((ih.statement fn).weaken (by omega)).bind fun n => .pure ?_
  rintro rest ws ⟨d, hn, hd⟩ _ ⟨vs, closing, rfl, hc, ha⟩ _ ⟨us, semicolon, rfl, hs, hcond⟩ ts hi
  have hn' := Statement.forLoop hk ho hi (clause_condition keyword hcond) hs (clause_increment ha)
    hc hn
  rw [← Node.forLoop_eq] at hn'
  exact ⟨d, by simpa using hn', hd⟩

theorem statement_succ : Yields source.turns fn (Closed fn)
    (Parse.statement source (frames + 1)) := by
  simp only [Parse.statement]
  refine .peek hl (fun t ht => ?_) fun p t rest hp hlt hd => ?_
  · rw [ht]
    exact (expressionStatement_sound hl).mono fun ts n rest h => .of_statement (.expression h)
  split
  next hk =>
    refine .advance hp hlt hd (((printStatement_sound hl hk).weaken (by omega)).mono ?_)
    exact fun ts n rest h => .of_statement h
  next hk =>
    refine .advance hp hlt hd (.map ((ih.block fn).weaken (by omega)) ?_)
    rintro ts ns rest ⟨us, closing, rfl, hs, hc⟩
    exact .of_statement (.block hk hs hc)
  next hk => exact .advance hp hlt hd ((ih.ifStatement fn t hk).weaken (by omega))
  next hk => exact .advance hp hlt hd ((ih.whileStatement fn t hk).weaken (by omega))
  next hk => exact .advance hp hlt hd ((ih.forStatement fn t hk).weaken (by omega))
  next hk =>
    refine .advance hp hlt hd (((returnStatement_sound hl hk).weaken (by omega)).mono ?_)
    exact fun ts n rest h => .of_statement h
  next =>
    exact (((expressionStatement_sound hl).mono fun ts n rest h =>
      .of_statement (.expression h)) p hlt hd)

end StatementsSound

theorem statementsSound (hl : source.last.isEnd) (frames : Nat) :
    StatementsSound source frames := by
  induction frames with
  | zero =>
    refine ⟨fun _ => ?_, fun _ _ _ => ?_, fun _ => ?_, fun _ => ?_, fun _ _ _ => ?_,
      fun _ _ _ => ?_, fun _ _ _ => ?_⟩ <;> exact .exhausted _
  | succ frames ih =>
    exact ⟨fun _ => ih.declaration_succ hl, fun _ _ hk => ih.functionDeclaration_succ hl hk,
      fun _ => ih.block_succ hl, fun _ => ih.statement_succ hl,
      fun _ _ hk => ih.ifStatement_succ hl hk, fun _ _ hk => ih.whileStatement_succ hl hk,
      fun _ _ hk => ih.forStatement_succ hl hk⟩

end Parse

end Lox
