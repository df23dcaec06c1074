import Lox.Proofs.Parse.Progress

/-!
Parses of some tokens alone and in front of more tokens. Main statement: as long as a rule leaves
tokens over, it does the same whatever follows them, and whatever was reported before.
-/

set_option autoImplicit false

namespace Lox

/-- Two ways to parse the same tokens: alone, and after some reports and before more tokens. -/
structure Seam where
  part : Source
  whole : Source
  before : Array Diagnostic
  more : List Token
  partEnd : part.last.isEnd
  turns : part.turns ≤ whole.turns

namespace Seam

/-- A position in the part as one in the whole. -/
def place (s : Seam) (p : Parser) : Parser :=
  ⟨p.pending ++ s.more, s.before ++ p.diagnostics, p.functionDepth⟩

/-- Nothing more follows the part. -/
def Closed (s : Seam) : Prop := s.more = [] ∧ s.whole.last = s.part.last

/-- What comes next is the same for the part and the whole: tokens of the part are left, or nothing
more follows them. -/
def Clear (s : Seam) (p : Parser) : Prop := p.pending ≠ [] ∨ s.Closed

variable {s : Seam} {p q : Parser}

theorem Clear.of_advances (h : s.Clear q) (ha : Parse.Advances p q) : s.Clear p := by
  rcases h with h | h
  · refine .inl fun hp => h ?_
    have hpending := ha.pending
    rwa [hp, List.suffix_nil] at hpending
  · exact .inr h

theorem Clear.headD (h : s.Clear p) :
    (s.place p).pending.headD s.whole.last = p.pending.headD s.part.last := by
  cases hq : p.pending with
  | nil =>
    obtain ⟨hm, hl⟩ := h.resolve_left (not_not_intro hq)
    simp [place, hq, hm, hl]
  | cons t rest => simp [place, hq]

theorem Clear.isEmpty (h : s.Clear p) : (s.place p).pending.isEmpty = p.pending.isEmpty := by
  cases hq : p.pending with
  | nil =>
    obtain ⟨hm, -⟩ := h.resolve_left (not_not_intro hq)
    simp [place, hq, hm]
  | cons t rest => simp [place, hq]

theorem Clear.tail (h : s.Clear p) :
    { s.place p with pending := (s.place p).pending.tail } =
      s.place { p with pending := p.pending.tail } := by
  cases hq : p.pending with
  | nil =>
    obtain ⟨hm, -⟩ := h.resolve_left (not_not_intro hq)
    simp [place, hq, hm]
  | cons t rest => simp [place, hq]

theorem place_report (s : Seam) (p : Parser) (d : Diagnostic) :
    (s.place p).report d = s.place (p.report d) := by
  simp [place, Parser.report]

theorem skip_append {before : Token} {ts more : List Token}
    (h : Parser.skip before ts ≠ [] ∨ more = []) :
    Parser.skip before (ts ++ more) = Parser.skip before ts ++ more := by
  induction ts generalizing before with
  | nil =>
    obtain rfl := h.resolve_left (not_not_intro rfl)
    rfl
  | cons t rest ih =>
    rw [List.cons_append, Parser.skip, Parser.skip]
    rw [Parser.skip] at h
    split
    · rfl
    · rw [if_neg ‹_›] at h
      exact ih h

theorem Clear.synchronize (h : s.Clear p.synchronize) :
    (s.place p).synchronize = s.place p.synchronize := by
  cases hq : p.pending with
  | nil =>
    have hp : p.synchronize = p := by simp [Parser.synchronize, hq]
    rw [hp] at h ⊢
    obtain ⟨hm, -⟩ := h.resolve_left (not_not_intro hq)
    simp [Parser.synchronize, place, hq, hm]
  | cons t rest =>
    have hp : p.synchronize = { p with pending := Parser.skip t rest } := by
      simp [Parser.synchronize, hq]
    rw [hp] at h ⊢
    have happend : Parser.skip t (rest ++ s.more) = Parser.skip t rest ++ s.more :=
      skip_append (h.imp_right And.left)
    simp [Parser.synchronize, place, hq, happend]

end Seam

namespace Parse

variable {α β : Type} {s : Seam} {n : Nat}

/-- From one position the step for the whole does what the step for the part does, unless that comes to
the end and more follows. -/
structure JoinsAt (s : Seam) (x y : Parse α) (p : Parser) : Prop where
  advances : Advances p (x p).2
  joined : s.Clear (x p).2 → y (s.place p) = ((x p).1, s.place (x p).2)

/-- The same from every position with fewer tokens left than a bound. -/
def Joins (s : Seam) (n : Nat) (x y : Parse α) : Prop :=
  ∀ p, p.pending.length < n → JoinsAt s x y p

namespace JoinsAt

variable {p : Parser}

theorem congr {x x' y y' : Parse α} (h : JoinsAt s x' y' p) (hx : x p = x' p)
    (hy : s.Clear p → y (s.place p) = y' (s.place p)) : JoinsAt s x y p := by
  obtain ⟨ha, hj⟩ := h
  rw [← hx] at ha hj
  exact ⟨ha, fun hc => (hy (hc.of_advances ha)).trans (hj hc)⟩

theorem bind {x y : Parse α} {f g : α → Parse β} (h : JoinsAt s x y p)
    (hf : ∀ a, (x p).1 = .ok a → JoinsAt s (f a) (g a) (x p).2) :
    JoinsAt s (x >>= f) (y >>= g) p := by
  obtain ⟨ha, hj⟩ := h
  cases hs : x p with
  | mk r q =>
    rw [hs] at ha hj hf
    cases r with
    | error e =>
      have hx : (x >>= f) p = (.error e, q) := by rw [bind_apply, hs]
      refine ⟨by rwa [hx], fun hc => ?_⟩
      rw [hx] at hc ⊢
      rw [bind_apply, hj hc]
    | ok a =>
      have hx : (x >>= f) p = f a q := by rw [bind_apply, hs]
      obtain ⟨ha', hj'⟩ := hf a rfl
      refine ⟨by rw [hx]; exact ha.trans ha', fun hc => ?_⟩
      rw [hx] at hc ⊢
      rw [bind_apply, hj (hc.of_advances ha')]
      exact hj' hc

theorem pure (a : α) (p : Parser) : JoinsAt s (pure a : Parse α) (pure a) p :=
  ⟨.refl p, fun _ => rfl⟩

theorem throw (e : Abort) (p : Parser) : JoinsAt s (throw e : Parse α) (throw e) p :=
  ⟨.refl p, fun _ => rfl⟩

theorem look {x y : Parse α} {a : α} (hx : x p = (.ok a, p))
    (hy : s.Clear p → y (s.place p) = (.ok a, s.place p)) : JoinsAt s x y p := by
  refine ⟨by rw [hx]; exact .refl p, fun hc => ?_⟩
  rw [hx] at hc ⊢
  exact hy hc

end JoinsAt

namespace Joins

theorem pure (a : α) : Joins s n (pure a : Parse α) (pure a) := fun p _ => .pure a p

theorem throw (e : Abort) : Joins s n (throw e : Parse α) (throw e) := fun p _ => .throw e p

theorem bind {x y : Parse α} {f g : α → Parse β} (h : Joins s n x y)
    (hf : ∀ a, Joins s n (f a) (g a)) : Joins s n (x >>= f) (y >>= g) := fun p hp =>
  (h p hp).bind fun a _ => hf a _ (Nat.lt_of_le_of_lt (h p hp).advances.length_le hp)

theorem map {x y : Parse α} (f : α → β) (h : Joins s n x y) : Joins s n (f <$> x) (f <$> y) := by
  rw [map_eq_pure_bind, map_eq_pure_bind]
  exact h.bind fun a => pure (f a)

theorem ite {c : Prop} [Decidable c] {x x' y y' : Parse α} (hx : Joins s n x x')
    (hy : Joins s n y y') : Joins s n (if c then x else y) (if c then x' else y') := by
  split
  · exact hx
  · exact hy

theorem peek : Joins s n (peek s.part) (peek s.whole) := fun p _ =>
  .look (peek_apply ..) fun hc => by rw [peek_apply, hc.headD]

theorem atEnd : Joins s n atEnd atEnd := fun p _ =>
  .look (atEnd_apply p) fun hc => by rw [atEnd_apply, hc.isEmpty]

theorem nextIs (kind : Kind) : Joins s n (nextIs s.part kind) (nextIs s.whole kind) := fun p _ =>
  .look (nextIs_apply ..) fun hc => by rw [nextIs_apply, hc.headD]

theorem advance : Joins s n (advance s.part) (advance s.whole) := fun p _ => by
  have ha : Advances p { p with pending := p.pending.tail } := .drop p.pending.tail_suffix
  refine ⟨ha, fun hc => ?_⟩
  have hp := Seam.Clear.of_advances hc ha
  rw [advance_apply, advance_apply, hp.headD, hp.tail]

theorem report (t : Token) (c : Complaint) : Joins s n (report t c) (report t c) := fun p _ =>
  ⟨.report p _, fun _ => by rw [report_apply, report_apply, s.place_report]⟩

theorem fail (c : Complaint) :
    Joins s n (Parse.fail s.part c : Parse α) (Parse.fail s.whole c) := fun p _ => by
  refine ⟨.report p _, fun hc => ?_⟩
  have hp := Seam.Clear.of_advances hc (.report p _)
  rw [fail_apply, fail_apply, hp.headD, s.place_report]

theorem accept (kinds : List Kind) :
    Joins s n (accept? s.part kinds) (accept? s.whole kinds) := by
  refine bind peek fun t => ?_
  exact ite (bind advance fun t => pure (some t)) (pure none)

theorem expect (kind : Kind) (c : Complaint) :
    Joins s n (expect s.part kind c) (expect s.whole kind c) :=
  bind (nextIs kind) fun _ => ite advance (fail c)

/-- Being inside a function is the same for the part and the whole. -/
theorem outside {x x' y y' : Parse α} (hx : Joins s n x x') (hy : Joins s n y y') :
    Joins s n (get >>= fun p : Parser => if p.functionDepth = 0 then x else y)
      (get >>= fun p : Parser => if p.functionDepth = 0 then x' else y') := fun p hp =>
  (ite (c := p.functionDepth = 0) hx hy p hp).congr rfl fun _ => rfl

theorem inFunction {x y : Parse α} (h : Joins s n x y) :
    Joins s n (inFunction x) (inFunction y) := by
  intro p hp
  obtain ⟨ha, hj⟩ := h { p with functionDepth := p.functionDepth + 1 } hp
  refine ⟨⟨ha.pending, ha.diagnostics, congrArg (· - 1) ha.functionDepth⟩, fun hc => ?_⟩
  have hin : y { s.place p with functionDepth := (s.place p).functionDepth + 1 } = _ := hj hc
  unfold Parse.inFunction
  rw [hin]
  rfl

theorem recover {x y : Parse α} (h : Joins s n x y) : Joins s n (recover x) (recover y) := by
  intro p hp
  obtain ⟨ha, hj⟩ := h p hp
  unfold Parse.recover
  cases hs : x p with
  | mk r q =>
    rw [hs] at ha hj
    rcases r with (_ | _) | a
    · have hsync := Advances.synchronize q
      refine ⟨by rw [hs]; exact ha.trans hsync, fun hc => ?_⟩
      rw [hs] at hc ⊢
      have hq : s.Clear q := hc.of_advances hsync
      rw [hj hq]
      exact congrArg _ hc.synchronize
    all_goals
      refine ⟨by rw [hs]; exact ha, fun hc => ?_⟩
      rw [hs] at hc ⊢
      rw [hj hc]

/-- Every turn that goes on takes a token, so no loop ends for want of turns. -/
theorem extend {step step' : Node → Parse (Option Node)} (h : ∀ l, Joins s n (step l) (step' l))
    (hstep : ∀ l p m, (step l p).1 = .ok (some m) →
      (step l p).2.pending.length < p.pending.length) {turns turns' : Nat} (hn : turns ≤ n)
    (ht : turns ≤ turns') (l : Node) :
    Joins s turns (extend step turns l) (extend step' turns' l) := by
  induction turns generalizing turns' l with
  | zero => exact fun p hp => absurd hp (Nat.not_lt_zero _)
  | succ turns ih =>
    obtain ⟨turns', rfl⟩ := Nat.exists_eq_add_of_lt ht
    intro p hp
    refine (h l p (Nat.lt_of_lt_of_le hp hn)).bind fun o ho => ?_
    cases o with
    | none => exact .pure l _
    | some m => exact ih (by omega) (by omega) m _ (by have := hstep l p m ho; omega)

theorem separated {item item' : Parse Node} (h : Joins s n item item')
    (hitem : TakesOne item) (excess : Complaint) {turns turns' : Nat} (hn : turns ≤ n)
    (ht : turns ≤ turns') (done : Array Node) :
    Joins s turns (Parse.separated s.part excess item turns done)
      (Parse.separated s.whole excess item' turns' done) := by
  induction turns generalizing turns' done with
  | zero => exact fun p hp => absurd hp (Nat.not_lt_zero _)
  | succ turns ih =>
    obtain ⟨turns', rfl⟩ := Nat.exists_eq_add_of_lt ht
    refine ite (bind peek fun t => bind (report t excess) fun _ => ?_) ?_
    all_goals
      intro p hp
      refine (h p (Nat.lt_of_lt_of_le hp hn)).bind fun m hm => ?_
      have hlt := hitem.length_lt hm
      refine bind (accept [.comma]) (fun o => ?_) _ (Nat.lt_of_lt_of_le hlt (Nat.le_of_lt_succ hp))
      cases o with
      | none => exact pure _
      | some _ => exact ih (by omega) (by omega) (done.push m)

theorem untilBrace {item item' : Parse (Option Node)} (h : Joins s n item item')
    (hitem : DeclarationTakes item) {turns turns' : Nat} (hn : turns ≤ n) (ht : turns ≤ turns')
    (done : Array Node) :
    Joins s turns (untilBrace s.part item turns done) (untilBrace s.whole item' turns' done) := by
  induction turns generalizing turns' done with
  | zero => exact fun p hp => absurd hp (Nat.not_lt_zero _)
  | succ turns ih =>
    obtain ⟨turns', rfl⟩ := Nat.exists_eq_add_of_lt ht
    intro p hp
    refine (nextIs _ p hp).bind fun b _ => (atEnd p hp).bind fun e he => ?_
    obtain rfl : p.pending.isEmpty = e := Except.ok.inj he
    change JoinsAt s _ _ p
    split
    · exact .pure _ p
    · -- A turn goes on before the end only, where an item takes a token.
      have hne : p.pending ≠ [] := by
        intro hq
        simp [hq] at *
      refine (h p (Nat.lt_of_lt_of_le hp hn)).bind fun o ho => ?_
      have hlt := hitem.length_lt ho hne
      cases o with
      | none => exact ih (by omega) (by omega) done _ (by omega)
      | some m => exact ih (by omega) (by omega) (done.push m) _ (by omega)

end Joins

/-- A rule does the same for the part and the whole. -/
def Unmoved (s : Seam) (rule : Source → Parse α) : Prop :=
  Joins s s.part.turns (rule s.part) (rule s.whole)

theorem Unmoved.eq {rule : Source → Parse α} (h : Unmoved s rule) {p q : Parser}
    {r : Except Abort α} (hp : p.pending.length < s.part.turns) (hr : rule s.part p = (r, q))
    (hq : s.Clear q) : rule s.whole (s.place p) = (r, s.place q) := by
  have hj := (h p hp).joined
  rw [hr] at hj
  exact hj hq

/-- The rules of expressions with some frames. -/
structure ExpressionsJoin (s : Seam) (frames : Nat) : Prop where
  expression : Unmoved s (expression · frames)
  assignment : Unmoved s (assignment · frames)
  operand : ∀ levels, Unmoved s (operand · frames levels)
  call : Unmoved s (call · frames)
  finishCall : ∀ n, Unmoved s (finishCall · frames n)
  primary : Unmoved s (primary · frames)

namespace ExpressionsJoin

variable {frames : Nat} (ih : ExpressionsJoin s frames)
include ih

theorem assignment_succ : Unmoved s (Parse.assignment · (frames + 1)) := by
  refine .bind (ih.operand Level.all) fun target => .bind (.accept _) fun o => ?_
  cases o with
  | none => exact .pure _
  | some equals =>
    refine .bind ih.assignment fun value => ?_
    split
    · exact .pure _
    · exact .bind (.report _ _) fun _ => .pure _

theorem operand_succ (levels : List Level) : Unmoved s (Parse.operand · (frames + 1) levels) := by
  cases levels with
  | nil =>
    refine .bind (.accept _) fun o => ?_
    cases o with
    | none => exact ih.call
    | some operator => exact .bind (ih.operand []) fun right => .pure _
  | cons level tighter =>
    have htakes := (expressionsTake s.partEnd frames).operand tighter
    refine .bind (ih.operand tighter) fun left => .extend (fun left => ?_) (fun left p n h => ?_)
      (Nat.le_refl _) s.turns left
    · refine .bind (.accept _) fun o => ?_
      cases o with
      | none => exact .pure _
      | some operator => exact .bind (ih.operand tighter) fun right => .pure _
    · exact accept_length_lt rfl (fun operator => htakes.first fun right => .pure _) h

theorem call_succ : Unmoved s (Parse.call · (frames + 1)) := by
  have htakes := (expressionsTake s.partEnd frames).finishCall
  refine .bind ih.primary fun callee => .extend (fun callee => ?_) (fun callee p n h => ?_)
    (Nat.le_refl _) s.turns callee
  · refine .bind (.accept _) fun o => ?_
    cases o with
    | none => exact .pure _
    | some _ => exact .bind (ih.finishCall callee) fun n => .pure _
  · exact accept_length_lt rfl (fun _ => (htakes callee).first fun n => .pure _) h

theorem finishCall_succ (callee : Node) : Unmoved s (Parse.finishCall · (frames + 1) callee) := by
  have hparen : ∀ arguments : List Node, Unmoved s fun source => (do
      let paren ← Parse.expect source .rightParen (.missing ')' .arguments)
      return Node.call callee (.token paren) arguments) := fun arguments =>
    .bind (.expect _ _) fun _ => .pure _
  have htakes := (expressionsTake s.partEnd frames).expression
  simp only [Unmoved, Parse.finishCall]
  refine .bind (.nextIs _) fun _ => .ite (hparen []) (.bind ?_ hparen)
  exact .separated ih.expression htakes _ (Nat.le_refl _) s.turns _

theorem primary_succ : Unmoved s (Parse.primary · (frames + 1)) := by
  refine .bind .peek fun t => .ite ?_ (.ite ?_ (.ite ?_ (.fail _)))
  · exact .bind .advance fun _ => .pure _
  · exact .bind .advance fun _ => .pure _
  · exact .bind .advance fun _ => .bind ih.expression fun _ => .bind (.expect _ _) fun _ => .pure _

end ExpressionsJoin

theorem expressionsJoin (s : Seam) (frames : Nat) : ExpressionsJoin s frames := by
  induction frames with
  | zero => constructor <;> intros <;> exact .throw _
  | succ frames ih =>
    exact ⟨ih.assignment, ih.assignment_succ, ih.operand_succ, ih.call_succ, ih.finishCall_succ,
      ih.primary_succ⟩

section Clauses

variable (s : Seam) (frames : Nat)

theorem varDeclaration_joins : Unmoved s (varDeclaration · frames) := by
  have ih := (expressionsJoin s frames).expression
  refine .bind (.expect _ _) fun name => .bind (.accept _) fun o => ?_
  cases o with
  | none => exact .bind (.pure _) fun _ => .bind (.expect _ _) fun _ => .pure _
  | some _ => exact .bind ih fun _ => .bind (.expect _ _) fun _ => .pure _

theorem expressionStatement_joins : Unmoved s (expressionStatement · frames) :=
  .bind (expressionsJoin s frames).expression fun _ => .bind (.expect _ _) fun _ => .pure _

theorem printStatement_joins : Unmoved s (printStatement · frames) :=
  .bind (expressionsJoin s frames).expression fun _ => .bind (.expect _ _) fun _ => .pure _

theorem returnStatement_joins (keyword : Token) :
    Unmoved s (returnStatement · frames keyword) := by
  have ih := (expressionsJoin s frames).expression
  have hclose : ∀ value, Unmoved s fun source => (do
      let _ ← expect source .semicolon (.missing ';' .returnValue)
      return Node.ret (.token keyword) value) := fun value => .bind (.expect _ _) fun _ => .pure _
  have hvalue : Unmoved s fun source => (do
      let value ← if ← nextIs source .semicolon then pure .missing else expression source frames
      let _ ← expect source .semicolon (.missing ';' .returnValue)
      return Node.ret (.token keyword) value) :=
    .bind (.nextIs _) fun _ => .ite (.bind (.pure _) hclose) (.bind ih hclose)
  exact .outside (.bind (.report _ _) fun _ => hvalue) hvalue

theorem parameters_joins : Unmoved s parameters := by
  have hname : TakesOne (Node.token <$> expect s.part .identifier (.missingName .parameter)) :=
    .map _ (.expect_one s.partEnd (by decide) (fun _ _ => rfl) _)
  refine .bind (.nextIs _) fun _ => .ite (.pure _) ?_
  exact .separated (.map _ (.expect _ _)) hname _ (Nat.le_refl _) s.turns _

theorem forInitializer_joins : Unmoved s (forInitializer · frames) := by
  refine .bind (.accept _) fun o => .ite (.pure _) (.bind (.accept _) fun o => .ite ?_ ?_)
  · exact .bind (varDeclaration_joins s frames) fun _ => .pure _
  · exact .bind (expressionStatement_joins s frames) fun _ => .pure _

theorem forClause_joins (closing : Kind) (c : Complaint) :
    Unmoved s (forClause · frames closing c) := by
  have ih := (expressionsJoin s frames).expression
  have hclose : ∀ clause : Option Node, Unmoved s fun source => (do
      let _ ← expect source closing c
      return clause) := fun clause => .bind (.expect _ _) fun _ => .pure _
  simp only [Unmoved, forClause]
  exact .bind (.nextIs _) fun _ => .ite (.bind (.pure _) hclose) (.bind (.map _ ih) hclose)

end Clauses

/-- The rules of statements with some frames. -/
structure StatementsJoin (s : Seam) (frames : Nat) : Prop where
  declaration : Unmoved s (declaration · frames)
  functionDeclaration : Unmoved s (functionDeclaration · frames)
  block : Unmoved s (block · frames)
  statement : Unmoved s (statement · frames)
  ifStatement : Unmoved s (ifStatement · frames)
  whileStatement : Unmoved s (whileStatement · frames)
  forStatement : ∀ keyword, Unmoved s (forStatement · frames keyword)

namespace StatementsJoin

variable {frames : Nat} (ih : StatementsJoin s frames)
include ih

theorem bareDeclaration : Unmoved s (bareDeclaration · frames) := by
  refine .bind (.accept _) fun o => .ite (varDeclaration_joins s frames) ?_
  exact .bind (.accept _) fun o => .ite ih.functionDeclaration ih.statement

theorem functionDeclaration_succ : Unmoved s (Parse.functionDeclaration · (frames + 1)) := by
  refine .bind (.expect _ _) fun name => .bind (.expect _ _) fun _ => ?_
  refine .bind (parameters_joins s) fun params => .bind (.expect _ _) fun _ => ?_
  refine .bind (.expect _ _) fun _ => .bind (.inFunction ih.block) fun body => ?_
  exact .pure _

theorem block_succ : Unmoved s (Parse.block · (frames + 1)) := by
  have htakes := (statementsTake s.partEnd frames).declaration
  refine .bind (.untilBrace ih.declaration htakes (Nat.le_refl _) s.turns _) fun _ => ?_
  exact .bind (.expect _ _) fun _ => .pure _

theorem ifStatement_succ : Unmoved s (Parse.ifStatement · (frames + 1)) := by
  have he := (expressionsJoin s frames).expression
  refine .bind (.expect _ _) fun _ => .bind he fun c => .bind (.expect _ _) fun _ => ?_
  refine .bind ih.statement fun n => .bind (.accept _) fun o => ?_
  cases o with
  | none => exact .pure _
  | some _ => exact .bind ih.statement fun e => .pure _

theorem whileStatement_succ : Unmoved s (Parse.whileStatement · (frames + 1)) := by
  have he := (expressionsJoin s frames).expression
  refine .bind (.expect _ _) fun _ => .bind he fun c => .bind (.expect _ _) fun _ => ?_
  exact .bind ih.statement fun n => .pure _

theorem forStatement_succ (keyword : Token) :
    Unmoved s (Parse.forStatement · (frames + 1) keyword) := by
  refine .bind (.expect _ _) fun _ => .bind (forInitializer_joins s frames) fun before => ?_
  refine .bind (forClause_joins s frames _ _) fun c => ?_
  refine .bind (forClause_joins s frames _ _) fun after => ?_
  exact .bind ih.statement fun n => .pure _

theorem statement_succ : Unmoved s (Parse.statement · (frames + 1)) := by
  simp only [Unmoved, Parse.statement]
  refine .bind .peek fun t => ?_
  generalize t.kind = kind
  split
  · exact .bind .advance fun _ => printStatement_joins s frames
  · exact .bind .advance fun _ => .map _ ih.block
  · exact .bind .advance fun _ => ih.ifStatement
  · exact .bind .advance fun _ => ih.whileStatement
  · exact .bind .advance fun _ => ih.forStatement t
  · exact .bind .advance fun _ => returnStatement_joins s frames t
  · exact expressionStatement_joins s frames

end StatementsJoin

theorem statementsJoin (s : Seam) (frames : Nat) : StatementsJoin s frames := by
  induction frames with
  | zero => constructor <;> intros <;> exact .throw _
  | succ frames ih =>
    exact ⟨.recover ih.bareDeclaration, ih.functionDeclaration_succ, ih.block_succ, ih.statement_succ,
      ih.ifStatement_succ, ih.whileStatement_succ, ih.forStatement_succ⟩

theorem programTurn_joins (hs : s.Closed) (frames : Nat) (first : Token) {p : Parser}
    (hp : p.pending.length < s.part.turns) :
    programTurn s.whole frames first (s.place p) =
      ((programTurn s.part frames first p).1, s.place (programTurn s.part frames first p).2) := by
  unfold programTurn
  cases hd : declaration s.part frames p with
  | mk r q =>
    have hj : declaration s.whole frames (s.place p) = (r, s.place q) :=
      (statementsJoin s frames).declaration.eq hp hd (.inr hs)
    rw [hj]
    rcases r with (_ | _) | o
    · rfl
    · have hsync : s.Clear (q.report (.at first .tooMuchNesting)).synchronize := .inr hs
      dsimp only
      rw [s.place_report, hsync.synchronize]
    · rfl

theorem programOnto_joins (hs : s.Closed) (frames : Nat) {turns turns' : Nat}
    (ht : turns ≤ turns') (done : Array Node) {p : Parser} (hp : p.pending.length < turns)
    (hn : turns ≤ s.part.turns) :
    programOnto s.whole frames turns' done (s.place p) =
      ((programOnto s.part frames turns done p).1,
        s.place (programOnto s.part frames turns done p).2) := by
  induction turns generalizing turns' done p with
  | zero => exact absurd hp (Nat.not_lt_zero _)
  | succ turns ih =>
    obtain ⟨turns', rfl⟩ := Nat.exists_eq_add_of_lt ht
    cases hq : p.pending with
    | nil =>
      have hplace : (s.place p).pending = [] := by simp [Seam.place, hq, hs.1]
      rw [programOnto, programOnto, hplace, hq]
    | cons first rest =>
      have hplace : (s.place p).pending = first :: rest := by simp [Seam.place, hq, hs.1]
      have hlt := programTurn_length_lt s.partEnd frames first p (by simp [hq])
      rw [programOnto_cons hplace, programOnto_cons hq,
        programTurn_joins hs frames first (Nat.lt_of_lt_of_le hp hn)]
      exact ih (by omega) _ (by omega) (by omega)

end Parse

end Lox
