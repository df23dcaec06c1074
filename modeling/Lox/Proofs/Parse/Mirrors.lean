import Lox.Proofs.Node.Likeness
import Lox.Proofs.Parse.Programs

/-!
Parses of tokens that differ in their lines alone. Main statement: the statements differ in the lines of
their tokens alone, and the diagnostics in their lines.
-/

set_option autoImplicit false

namespace Lox

/-- Diagnostics that differ in their lines at most. -/
structure Diagnostic.SameText (d d' : Diagnostic) : Prop where
  spot : d'.spot = d.spot
  complaint : d'.complaint = d.complaint

theorem Token.SameText.isEnd_eq {t t' : Token} (h : t.SameText t') : t'.isEnd = t.isEnd := by
  rw [Token.isEnd, Token.isEnd, h.kind]

theorem Token.SameText.at {t t' : Token} (h : t.SameText t') (c : Complaint) :
    (Diagnostic.at t c).SameText (.at t' c) := by
  refine ⟨?_, rfl⟩
  simp only [Diagnostic.at, h.isEnd_eq, h.lexeme]

/-- Arrays of related elements. -/
def Elementwise {α β : Type} (R : α → β → Prop) (xs : Array α) (ys : Array β) : Prop :=
  List.Forall₂ R xs.toList ys.toList

namespace Elementwise

variable {α β : Type} {R : α → β → Prop} {xs : Array α} {ys : Array β}

theorem empty : Elementwise R #[] #[] := .nil

theorem push (h : Elementwise R xs ys) {x : α} {y : β} (hxy : R x y) :
    Elementwise R (xs.push x) (ys.push y) := by
  unfold Elementwise
  rw [Array.toList_push, Array.toList_push]
  exact List.rel_append h (.cons hxy .nil)

theorem size_eq (h : Elementwise R xs ys) : ys.size = xs.size := by
  rw [← Array.length_toList, ← Array.length_toList, h.length_eq]

end Elementwise

/-- Parsers that stand before tokens alike, and found diagnostics alike. -/
structure Parser.Like (p p' : Parser) : Prop where
  pending : List.Forall₂ Token.SameText p.pending p'.pending
  diagnostics : Elementwise Diagnostic.SameText p.diagnostics p'.diagnostics
  functionDepth : p'.functionDepth = p.functionDepth

structure Source.Like (source source' : Source) : Prop where
  last : source.last.SameText source'.last
  turns : source'.turns = source.turns

namespace Parser.Like

variable {p p' : Parser}

theorem isEmpty_eq (h : p.Like p') : p'.pending.isEmpty = p.pending.isEmpty := by
  have hpending := h.pending
  generalize p.pending = ts at hpending
  generalize p'.pending = ts' at hpending
  cases hpending <;> rfl

theorem headD (h : p.Like p') {t t' : Token} (ht : t.SameText t') :
    (p.pending.headD t).SameText (p'.pending.headD t') := by
  have hpending := h.pending
  generalize p.pending = ts at hpending
  generalize p'.pending = ts' at hpending
  cases hpending with
  | nil => exact ht
  | cons h _ => exact h

theorem tail (h : p.Like p') :
    Parser.Like { p with pending := p.pending.tail } { p' with pending := p'.pending.tail } := by
  refine ⟨?_, h.diagnostics, h.functionDepth⟩
  have hpending := h.pending
  generalize p.pending = ts at hpending
  generalize p'.pending = ts' at hpending
  cases hpending with
  | nil => exact .nil
  | cons _ h => exact h

theorem report (h : p.Like p') {d d' : Diagnostic} (hd : d.SameText d') :
    (p.report d).Like (p'.report d') := ⟨h.pending, h.diagnostics.push hd, h.functionDepth⟩

theorem skip {before before' : Token} (hb : before.SameText before') {ts ts' : List Token}
    (h : List.Forall₂ Token.SameText ts ts') :
    List.Forall₂ Token.SameText (Parser.skip before ts) (Parser.skip before' ts') := by
  induction h generalizing before before' with
  | nil => exact .nil
  | cons ht hts ih =>
    simp only [Parser.skip, hb.kind, ht.kind]
    split
    · exact .cons ht hts
    · exact ih ht

theorem synchronize (h : p.Like p') : p.synchronize.Like p'.synchronize := by
  have hpending := h.pending
  unfold Parser.synchronize
  generalize hp : p.pending = ts at hpending
  generalize hp' : p'.pending = ts' at hpending
  cases hpending with
  | nil => exact h
  | cons ht hts => exact ⟨skip ht hts, h.diagnostics, h.functionDepth⟩

end Parser.Like

namespace Parse

variable {α β γ δ : Type} {R : α → β → Prop} {Q : γ → δ → Prop} {source source' : Source}

/-- Results that are related, or the same abort. -/
inductive ResultLike (R : α → β → Prop) : Except Abort α → Except Abort β → Prop where
  | ok {a : α} {b : β} (h : R a b) : ResultLike R (.ok a) (.ok b)
  | error (e : Abort) : ResultLike R (.error e) (.error e)

/-- From parsers alike two steps have related results and leave parsers alike. -/
def Mirrors (R : α → β → Prop) (x : Parse α) (y : Parse β) : Prop :=
  ∀ p p', p.Like p' → ResultLike R (x p).1 (y p').1 ∧ (x p).2.Like (y p').2

/-- Trees that differ in the lines of their tokens at most. -/
abbrev Alike : Node → Node → Prop := Node.Like Token.SameText

namespace Mirrors

theorem pure {a : α} {b : β} (h : R a b) : Mirrors R (pure a : Parse α) (pure b) :=
  fun _ _ hp => ⟨.ok h, hp⟩

theorem throw (R : α → β → Prop) (e : Abort) : Mirrors R (throw e) (throw e) :=
  fun _ _ hp => ⟨.error e, hp⟩

theorem bind {x : Parse α} {y : Parse β} {f : α → Parse γ} {g : β → Parse δ} (h : Mirrors R x y)
    (hf : ∀ a b, R a b → Mirrors Q (f a) (g b)) : Mirrors Q (x >>= f) (y >>= g) := by
  intro p p' hp
  obtain ⟨hr, hq⟩ := h p p' hp
  rw [bind_apply, bind_apply]
  generalize x p = r at hr hq
  generalize y p' = r' at hr hq
  obtain ⟨r, q⟩ := r
  obtain ⟨r', q'⟩ := r'
  cases hr with
  | ok hab => exact hf _ _ hab q q' hq
  | error e => exact ⟨.error e, hq⟩

theorem map {x : Parse α} {y : Parse β} {f : α → γ} {g : β → δ} (h : Mirrors R x y)
    (hf : ∀ a b, R a b → Q (f a) (g b)) : Mirrors Q (f <$> x) (g <$> y) := by
  rw [map_eq_pure_bind, map_eq_pure_bind]
  exact h.bind fun a b hab => pure (hf a b hab)

theorem ite {c c' : Prop} [Decidable c] [Decidable c'] (hc : c' ↔ c) {x x' : Parse α}
    {y y' : Parse β} (hx : Mirrors R x y) (hx' : Mirrors R x' y') :
    Mirrors R (if c then x else x') (if c' then y else y') := by
  by_cases h : c
  · rw [if_pos h, if_pos (hc.2 h)]
    exact hx
  · rw [if_neg h, if_neg (mt hc.1 h)]
    exact hx'

theorem get : Mirrors Parser.Like get get := fun _ _ hp => ⟨.ok hp, hp⟩

theorem peek (hs : source.Like source') : Mirrors Token.SameText (peek source) (peek source') :=
  fun _ _ hp => ⟨.ok (hp.headD hs.last), hp⟩

theorem atEnd : Mirrors Eq atEnd atEnd := fun _ _ hp => ⟨.ok hp.isEmpty_eq.symm, hp⟩

theorem advance (hs : source.Like source') :
    Mirrors Token.SameText (advance source) (advance source') :=
  fun _ _ hp => ⟨.ok (hp.headD hs.last), hp.tail⟩

theorem nextIs (hs : source.Like source') (kind : Kind) :
    Mirrors Eq (nextIs source kind) (nextIs source' kind) := by
  intro p p' hp
  rw [nextIs_apply, nextIs_apply, (hp.headD hs.last).kind]
  exact ⟨.ok rfl, hp⟩

theorem accept? (hs : source.Like source') (kinds : List Kind) :
    Mirrors (Option.Rel Token.SameText) (accept? source kinds) (accept? source' kinds) := by
  refine (peek hs).bind fun t t' ht => ?_
  refine .ite (by rw [ht.kind]) ?_ (.pure .none)
  exact (advance hs).bind fun u u' hu => .pure (.some hu)

theorem report {t t' : Token} (ht : t.SameText t') (c : Complaint) :
    Mirrors Eq (report t c) (report t' c) := fun _ _ hp => ⟨.ok rfl, hp.report (ht.at c)⟩

theorem fail (R : α → β → Prop) (hs : source.Like source') (c : Complaint) :
    Mirrors R (fail source c) (fail source' c) :=
  (peek hs).bind fun _ _ ht => (report ht c).bind fun _ _ _ => throw R .syntaxError

theorem expect (hs : source.Like source') (kind : Kind) (c : Complaint) :
    Mirrors Token.SameText (expect source kind c) (expect source' kind c) := by
  refine (nextIs hs kind).bind ?_
  rintro b _ rfl
  exact .ite Iff.rfl (advance hs) (fail _ hs c)

theorem inFunction {x : Parse α} {y : Parse β} (h : Mirrors R x y) :
    Mirrors R (inFunction x) (inFunction y) := by
  intro p p' hp
  obtain ⟨hr, hq⟩ := h { p with functionDepth := p.functionDepth + 1 }
    { p' with functionDepth := p'.functionDepth + 1 }
    ⟨hp.pending, hp.diagnostics, congrArg (· + 1) hp.functionDepth⟩
  exact ⟨hr, hq.pending, hq.diagnostics, congrArg (· - 1) hq.functionDepth⟩

theorem recover {x : Parse α} {y : Parse β} (h : Mirrors R x y) :
    Mirrors (Option.Rel R) (recover x) (recover y) := by
  intro p p' hp
  obtain ⟨hr, hq⟩ := h p p' hp
  unfold Parse.recover
  generalize x p = r at hr hq
  generalize y p' = r' at hr hq
  obtain ⟨r, q⟩ := r
  obtain ⟨r', q'⟩ := r'
  cases hr with
  | ok hab => exact ⟨.ok (.some hab), hq⟩
  | error e =>
    cases e with
    | syntaxError => exact ⟨.ok .none, hq.synchronize⟩
    | exhausted => exact ⟨.error .exhausted, hq⟩

theorem extend {step step' : Node → Parse (Option Node)}
    (h : ∀ n n', Alike n n' → Mirrors (Option.Rel Alike) (step n) (step' n')) (turns : Nat)
    {n n' : Node} (hn : Alike n n') : Mirrors Alike (extend step turns n) (extend step' turns n') := by
  induction turns generalizing n n' with
  | zero => exact pure hn
  | succ turns ih =>
    refine (h n n' hn).bind ?_
    rintro _ _ (hm | -)
    · exact ih hm
    · exact pure hn

theorem separated (hs : source.Like source') {item item' : Parse Node} (h : Mirrors Alike item item')
    (excess : Complaint) (turns : Nat) {done done' : Array Node} (hd : Elementwise Alike done done') :
    Mirrors (List.Forall₂ Alike) (separated source excess item turns done)
      (separated source' excess item' turns done') := by
  induction turns generalizing done done' with
  | zero => exact pure hd
  | succ turns ih =>
    simp only [Parse.separated]
    refine .ite (by rw [hd.size_eq])
      ((peek hs).bind fun t t' ht => (report ht excess).bind fun _ _ _ => ?_) ?_
    all_goals
      refine h.bind fun n n' hn => (accept? hs [.comma]).bind ?_
      rintro _ _ (_ | -)
      · exact ih (hd.push hn)
      · exact pure (hd.push hn)

theorem untilBrace (hs : source.Like source') {item item' : Parse (Option Node)}
    (h : Mirrors (Option.Rel Alike) item item') (turns : Nat) {done done' : Array Node}
    (hd : Elementwise Alike done done') :
    Mirrors (List.Forall₂ Alike) (untilBrace source item turns done)
      (untilBrace source' item' turns done') := by
  induction turns generalizing done done' with
  | zero => exact pure hd
  | succ turns ih =>
    refine (nextIs hs .rightBrace).bind ?_
    rintro b _ rfl
    refine atEnd.bind ?_
    rintro e _ rfl
    refine .ite Iff.rfl (pure hd) (h.bind ?_)
    rintro _ _ (hn | -)
    · exact ih (hd.push hn)
    · exact ih hd

end Mirrors

/-- The rules of expressions on tokens alike. -/
structure ExpressionsMirror (source source' : Source) (frames : Nat) : Prop where
  expression : Mirrors Alike (expression source frames) (expression source' frames)
  assignment : Mirrors Alike (assignment source frames) (assignment source' frames)
  operand : ∀ levels, Mirrors Alike (operand source frames levels) (operand source' frames levels)
  call : Mirrors Alike (call source frames) (call source' frames)
  finishCall : ∀ n n', Alike n n' →
    Mirrors Alike (finishCall source frames n) (finishCall source' frames n')
  primary : Mirrors Alike (primary source frames) (primary source' frames)

theorem alike_build (level : Level) {l l' r r' : Node} {t t' : Token} (hl : Alike l l')
    (ht : t.SameText t') (hr : Alike r r') : Alike (level.build l t r) (level.build l' t' r') := by
  unfold Level.build
  split
  · exact .logical hl (.token ht) hr
  · exact .binary hl (.token ht) hr

namespace ExpressionsMirror

variable {frames : Nat} (hs : source.Like source')
include hs

theorem assignment_succ (ih : ExpressionsMirror source source' frames) :
    Mirrors Alike (Parse.assignment source (frames + 1)) (Parse.assignment source' (frames + 1)) := by
  refine (ih.operand Level.all).bind fun n n' hn => (Mirrors.accept? hs [.equal]).bind ?_
  rintro _ _ (ht | -)
  · refine ih.assignment.bind fun v v' hv => ?_
    have hsame := hn
    -- Only a variable can be assigned to, and trees alike are variables together.
    cases hn with
    | «variable» hname => exact .pure (.assign hname hv)
    | _ => exact (Mirrors.report ht .invalidTarget).bind fun _ _ _ => .pure hsame
  · exact .pure hn

theorem operand_succ (ih : ExpressionsMirror source source' frames) (levels : List Level) :
    Mirrors Alike (Parse.operand source (frames + 1) levels)
      (Parse.operand source' (frames + 1) levels) := by
  cases levels with
  | nil =>
    refine (Mirrors.accept? hs [.bang, .minus]).bind ?_
    rintro _ _ (ht | -)
    · exact (ih.operand []).bind fun n n' hn => .pure (.unary (.token ht) hn)
    · exact ih.call
  | cons level tighter =>
    refine (ih.operand tighter).bind fun n n' hn => ?_
    rw [hs.turns]
    refine .extend (fun l l' hl => (Mirrors.accept? hs level.operators).bind ?_) source.turns hn
    rintro _ _ (ht | -)
    · exact (ih.operand tighter).bind fun r r' hr => .pure (.some (alike_build level hl ht hr))
    · exact .pure .none

theorem call_succ (ih : ExpressionsMirror source source' frames) :
    Mirrors Alike (Parse.call source (frames + 1)) (Parse.call source' (frames + 1)) := by
  refine ih.primary.bind fun n n' hn => ?_
  rw [hs.turns]
  refine .extend (fun c c' hc => (Mirrors.accept? hs [.leftParen]).bind ?_) source.turns hn
  rintro _ _ (- | -)
  · exact (ih.finishCall c c' hc).bind fun m m' hm => .pure (.some hm)
  · exact .pure .none

theorem finishCall_succ (ih : ExpressionsMirror source source' frames) {n n' : Node}
    (hn : Alike n n') : Mirrors Alike (Parse.finishCall source (frames + 1) n)
      (Parse.finishCall source' (frames + 1) n') := by
  simp only [Parse.finishCall]
  refine (Mirrors.nextIs hs .rightParen).bind ?_
  rintro b _ rfl
  have hend : ∀ ns ns', List.Forall₂ Alike ns ns' → Mirrors Alike
      (Parse.expect source .rightParen (.missing ')' .arguments) >>= fun t =>
        pure (.call n (.token t) ns))
      (Parse.expect source' .rightParen (.missing ')' .arguments) >>= fun t =>
        pure (.call n' (.token t) ns')) := fun ns ns' hns =>
    (Mirrors.expect hs .rightParen _).bind fun t t' ht => .pure (.call hn (.token ht) hns)
  rw [hs.turns]
  refine .ite Iff.rfl (hend [] [] .nil) ?_
  exact (Mirrors.separated hs ih.expression _ _ .empty).bind hend

theorem primary_succ (ih : ExpressionsMirror source source' frames) :
    Mirrors Alike (Parse.primary source (frames + 1)) (Parse.primary source' (frames + 1)) := by
  refine (Mirrors.peek hs).bind fun t t' ht => ?_
  refine .ite (by rw [ht.kind]) ?_ (.ite (by rw [ht.kind]) ?_ (.ite (by rw [ht.kind]) ?_ ?_))
  · exact (Mirrors.advance hs).bind fun u u' hu => .pure (.literal (.token hu))
  · exact (Mirrors.advance hs).bind fun u u' hu => .pure (.variable (.token hu))
  · refine (Mirrors.advance hs).bind fun _ _ _ => ih.expression.bind fun n n' hn => ?_
    exact (Mirrors.expect hs .rightParen _).bind fun _ _ _ => .pure (.grouping hn)
  · exact .fail _ hs .missingExpression

end ExpressionsMirror

theorem expressionsMirror (hs : source.Like source') (frames : Nat) :
    ExpressionsMirror source source' frames := by
  induction frames with
  | zero => constructor <;> intros <;> exact .throw _ .exhausted
  | succ frames ih =>
    exact ⟨ih.assignment, ih.assignment_succ hs, ih.operand_succ hs, ih.call_succ hs,
      fun n n' hn => ih.finishCall_succ hs hn, ih.primary_succ hs⟩

section Clauses

variable (hs : source.Like source') (frames : Nat)
include hs

theorem varDeclaration_mirrors :
    Mirrors Alike (varDeclaration source frames) (varDeclaration source' frames) := by
  have ih := (expressionsMirror hs frames).expression
  refine (Mirrors.expect hs .identifier _).bind fun t t' ht => (Mirrors.accept? hs [.equal]).bind ?_
  have hend : ∀ n n', Alike n n' → Mirrors Alike
      (Parse.expect source .semicolon (.missing ';' .variableDeclaration) >>= fun _ =>
        pure (.var (.token t) n))
      (Parse.expect source' .semicolon (.missing ';' .variableDeclaration) >>= fun _ =>
        pure (.var (.token t') n')) := fun n n' hn =>
    (Mirrors.expect hs .semicolon _).bind fun _ _ _ => .pure (.var (.token ht) hn)
  rintro _ _ (- | -)
  · exact ih.bind hend
  · exact hend .missing .missing .missing

theorem expressionStatement_mirrors :
    Mirrors Alike (expressionStatement source frames) (expressionStatement source' frames) :=
  (expressionsMirror hs frames).expression.bind fun _ _ hn =>
    (Mirrors.expect hs .semicolon _).bind fun _ _ _ => .pure (.expression hn)

theorem printStatement_mirrors :
    Mirrors Alike (printStatement source frames) (printStatement source' frames) :=
  (expressionsMirror hs frames).expression.bind fun _ _ hn =>
    (Mirrors.expect hs .semicolon _).bind fun _ _ _ => .pure (.print hn)

theorem returnStatement_mirrors {keyword keyword' : Token} (hk : keyword.SameText keyword') :
    Mirrors Alike (returnStatement source frames keyword)
      (returnStatement source' frames keyword') := by
  have ih := (expressionsMirror hs frames).expression
  have hend : ∀ n n', Alike n n' → Mirrors Alike
      (Parse.expect source .semicolon (.missing ';' .returnValue) >>= fun _ =>
        pure (.ret (.token keyword) n))
      (Parse.expect source' .semicolon (.missing ';' .returnValue) >>= fun _ =>
        pure (.ret (.token keyword') n')) := fun n n' hn =>
    (Mirrors.expect hs .semicolon _).bind fun _ _ _ => .pure (.ret (.token hk) hn)
  simp only [returnStatement]
  refine Mirrors.get.bind fun p p' hp => .ite (by rw [hp.functionDepth])
    ((Mirrors.report hk .strayReturn).bind fun _ _ _ => ?_) ?_
  all_goals
    refine (Mirrors.nextIs hs .semicolon).bind ?_
    rintro b _ rfl
    exact .ite Iff.rfl (hend .missing .missing .missing) (ih.bind hend)

theorem parameters_mirrors :
    Mirrors (List.Forall₂ Alike) (parameters source) (parameters source') := by
  refine (Mirrors.nextIs hs .rightParen).bind ?_
  rintro b _ rfl
  rw [hs.turns]
  refine .ite Iff.rfl (.pure .nil) (.separated hs (.map (Mirrors.expect hs _ _) ?_) _ _ .empty)
  exact fun _ _ => .token

theorem forInitializer_mirrors :
    Mirrors (Option.Rel Alike) (forInitializer source frames) (forInitializer source' frames) := by
  refine (Mirrors.accept? hs [.semicolon]).bind ?_
  rintro _ _ (- | -)
  · exact .pure .none
  refine (Mirrors.accept? hs [.varWord]).bind ?_
  rintro _ _ (- | -)
  · exact (varDeclaration_mirrors hs frames).bind fun _ _ hn => .pure (.some hn)
  · exact (expressionStatement_mirrors hs frames).bind fun _ _ hn => .pure (.some hn)

theorem forClause_mirrors (closing : Kind) (c : Complaint) :
    Mirrors (Option.Rel Alike) (forClause source frames closing c)
      (forClause source' frames closing c) := by
  have ih := (expressionsMirror hs frames).expression
  have hend : ∀ o o', Option.Rel Alike o o' → Mirrors (Option.Rel Alike)
      (Parse.expect source closing c >>= fun _ => pure o)
      (Parse.expect source' closing c >>= fun _ => pure o') := fun o o' ho =>
    (Mirrors.expect hs closing c).bind fun _ _ _ => .pure ho
  simp only [forClause]
  refine (Mirrors.nextIs hs closing).bind ?_
  rintro b _ rfl
  exact .ite Iff.rfl (hend none none .none) ((ih.map fun _ _ => .some).bind hend)

end Clauses

/-- The condition that is left out is written on the line of the keyword. -/
theorem alike_forLoop {keyword keyword' : Token} {initializer initializer' condition condition'
    increment increment' : Option Node} {body body' : Node}
    (hi : Option.Rel Alike initializer initializer') (hc : Option.Rel Alike condition condition')
    (ha : Option.Rel Alike increment increment') (hb : Alike body body') :
    Alike (.forLoop keyword initializer condition increment body)
      (.forLoop keyword' initializer' condition' increment' body') := by
  have hcondition : Alike
      (condition.getD (.literal (.token ⟨.trueWord, .text "true", .null, keyword.line⟩)))
      (condition'.getD (.literal (.token ⟨.trueWord, .text "true", .null, keyword'.line⟩))) := by
    cases hc with
    | some h => exact h
    | none => exact .literal (.token ⟨rfl, rfl, rfl⟩)
  have hturn : ∀ {turn turn' : List Node}, List.Forall₂ Alike turn turn' →
      Alike (.block (initializer.toList ++ [.whileDo (condition.getD
          (.literal (.token ⟨.trueWord, .text "true", .null, keyword.line⟩))) (.block turn)]))
        (.block (initializer'.toList ++ [.whileDo (condition'.getD
          (.literal (.token ⟨.trueWord, .text "true", .null, keyword'.line⟩))) (.block turn')])) := by
    intro turn turn' hturn
    have hloop := List.Forall₂.cons (Node.Like.whileDo hcondition (.block hturn)) .nil
    cases hi with
    | some h => exact .block (.cons h hloop)
    | none => exact .block hloop
  cases ha with
  | some h => exact hturn (.cons hb (.cons (.expression h) .nil))
  | none => exact hturn (.cons hb .nil)

/-- The rules of statements on tokens alike. -/
structure StatementsMirror (source source' : Source) (frames : Nat) : Prop where
  declaration :
    Mirrors (Option.Rel Alike) (declaration source frames) (declaration source' frames)
  functionDeclaration :
    Mirrors Alike (functionDeclaration source frames) (functionDeclaration source' frames)
  block : Mirrors (List.Forall₂ Alike) (block source frames) (block source' frames)
  statement : Mirrors Alike (statement source frames) (statement source' frames)
  ifStatement : Mirrors Alike (ifStatement source frames) (ifStatement source' frames)
  whileStatement : Mirrors Alike (whileStatement source frames) (whileStatement source' frames)
  forStatement : ∀ keyword keyword',
    Mirrors Alike (forStatement source frames keyword) (forStatement source' frames keyword')

namespace StatementsMirror

variable {frames : Nat} (hs : source.Like source') (ih : StatementsMirror source source' frames)
include hs ih

theorem declaration_succ : Mirrors (Option.Rel Alike) (Parse.declaration source (frames + 1))
    (Parse.declaration source' (frames + 1)) := by
  refine .recover ((Mirrors.accept? hs [.varWord]).bind ?_)
  rintro _ _ (- | -)
  · exact varDeclaration_mirrors hs frames
  refine (Mirrors.accept? hs [.funWord]).bind ?_
  rintro _ _ (- | -)
  · exact ih.functionDeclaration
  · exact ih.statement

theorem functionDeclaration_succ : Mirrors Alike (Parse.functionDeclaration source (frames + 1))
    (Parse.functionDeclaration source' (frames + 1)) := by
  refine (Mirrors.expect hs .identifier _).bind fun t t' ht => ?_
  refine (Mirrors.expect hs .leftParen _).bind fun _ _ _ => ?_
  refine (parameters_mirrors hs).bind fun params params' hp => ?_
  refine (Mirrors.expect hs .rightParen _).bind fun _ _ _ => ?_
  refine (Mirrors.expect hs .leftBrace _).bind fun _ _ _ => ?_
  exact (Mirrors.inFunction ih.block).bind fun ns ns' hns => .pure (.function (.token ht) hp (.block hns))

theorem block_succ : Mirrors (List.Forall₂ Alike) (Parse.block source (frames + 1))
    (Parse.block source' (frames + 1)) := by
  simp only [Parse.block]
  rw [hs.turns]
  exact (Mirrors.untilBrace hs ih.declaration _ .empty).bind fun ns ns' hns =>
    (Mirrors.expect hs .rightBrace _).bind fun _ _ _ => .pure hns

theorem ifStatement_succ : Mirrors Alike (Parse.ifStatement source (frames + 1))
    (Parse.ifStatement source' (frames + 1)) := by
  have he := (expressionsMirror hs frames).expression
  refine (Mirrors.expect hs .leftParen _).bind fun _ _ _ => he.bind fun c c' hc => ?_
  refine (Mirrors.expect hs .rightParen _).bind fun _ _ _ => ih.statement.bind fun n n' hn => ?_
  refine (Mirrors.accept? hs [.elseWord]).bind ?_
  rintro _ _ (- | -)
  · exact ih.statement.bind fun e e' he => .pure (.ifElse hc hn he)
  · exact .pure (.ifElse hc hn .missing)

theorem whileStatement_succ : Mirrors Alike (Parse.whileStatement source (frames + 1))
    (Parse.whileStatement source' (frames + 1)) := by
  have he := (expressionsMirror hs frames).expression
  refine (Mirrors.expect hs .leftParen _).bind fun _ _ _ => he.bind fun c c' hc => ?_
  refine (Mirrors.expect hs .rightParen _).bind fun _ _ _ => ih.statement.bind fun n n' hn => ?_
  exact .pure (.whileDo hc hn)

theorem forStatement_succ (keyword keyword' : Token) :
    Mirrors Alike (Parse.forStatement source (frames + 1) keyword)
      (Parse.forStatement source' (frames + 1) keyword') := by
  refine (Mirrors.expect hs .leftParen _).bind fun _ _ _ => ?_
  refine (forInitializer_mirrors hs frames).bind fun i i' hi => ?_
  refine (forClause_mirrors hs frames _ _).bind fun c c' hc => ?_
  refine (forClause_mirrors hs frames _ _).bind fun a a' ha => ?_
  exact ih.statement.bind fun n n' hn => .pure (alike_forLoop hi hc ha hn)

theorem statement_succ : Mirrors Alike (Parse.statement source (frames + 1))
    (Parse.statement source' (frames + 1)) := by
  simp only [Parse.statement]
  refine (Mirrors.peek hs).bind fun t t' ht => ?_
  rw [ht.kind]
  have hadvance : ∀ {x y : Parse Node}, Mirrors Alike x y → Mirrors Alike
      (Parse.advance source >>= fun _ => x) (Parse.advance source' >>= fun _ => y) :=
    fun h => (Mirrors.advance hs).bind fun _ _ _ => h
  generalize t.kind = kind
  split
  · exact hadvance (printStatement_mirrors hs frames)
  · exact hadvance (ih.block.map fun _ _ => .block)
  · exact hadvance ih.ifStatement
  · exact hadvance ih.whileStatement
  · exact hadvance (ih.forStatement t t')
  · exact hadvance (returnStatement_mirrors hs frames ht)
  · exact expressionStatement_mirrors hs frames

end StatementsMirror

theorem statementsMirror (hs : source.Like source') (frames : Nat) :
    StatementsMirror source source' frames := by
  induction frames with
  | zero => constructor <;> intros <;> exact .throw _ .exhausted
  | succ frames ih =>
    exact ⟨ih.declaration_succ hs, ih.functionDeclaration_succ hs, ih.block_succ hs,
      ih.statement_succ hs, ih.ifStatement_succ hs, ih.whileStatement_succ hs, ih.forStatement_succ hs⟩

/-- Declaration by declaration, parsed or dropped alike. -/
theorem programOnto_mirrors (hs : source.Like source') (frames turns : Nat)
    {done done' : Array Node} (hd : Elementwise Alike done done') {p p' : Parser} (hp : p.Like p') :
    Elementwise Alike (programOnto source frames turns done p).1
        (programOnto source' frames turns done' p').1 ∧
      (programOnto source frames turns done p).2.Like
        (programOnto source' frames turns done' p').2 := by
  induction turns generalizing done done' p p' with
  | zero => exact ⟨hd, hp⟩
  | succ turns ih =>
    have hpending := hp.pending
    cases hq : p.pending with
    | nil =>
      rw [hq] at hpending
      have hq' : p'.pending = [] := List.forall₂_nil_left_iff.1 hpending
      rw [programOnto, programOnto, hq, hq']
      exact ⟨hd, hp⟩
    | cons first rest =>
      rw [hq] at hpending
      obtain ⟨first', rest', hfirst, -, hq'⟩ := List.forall₂_cons_left_iff.1 hpending
      rw [programOnto_succ hq, programOnto_succ hq']
      obtain ⟨hr, hnext⟩ := (statementsMirror hs frames).declaration p p' hp
      generalize declaration source frames p = r at hr hnext
      generalize declaration source' frames p' = r' at hr hnext
      obtain ⟨r, q⟩ := r
      obtain ⟨r', q'⟩ := r'
      cases hr with
      | ok ho =>
        cases ho with
        | some hn => exact ih (hd.push hn) hnext
        | none => exact ih hd hnext
      | error e =>
        cases e with
        | syntaxError => exact ih hd hnext
        | exhausted => exact ih hd (hnext.report (hfirst.at .tooMuchNesting)).synchronize

end Parse

variable {tokens tokens' : List Token}

theorem Source.like_ofTokens (h : List.Forall₂ Token.SameText tokens tokens') :
    (Source.ofTokens tokens).Like (.ofTokens tokens') := by
  refine ⟨?_, congrArg (· + 1) h.length_eq.symm⟩
  have hfind : Option.Rel Token.SameText (tokens.find? Token.isEnd) (tokens'.find? Token.isEnd) := by
    induction h with
    | nil => exact .none
    | cons ht _ ih =>
      rw [List.find?_cons, List.find?_cons, ht.isEnd_eq]
      split
      · exact .some ht
      · exact ih
  simp only [ofTokens, lastOf]
  generalize tokens.find? Token.isEnd = last at hfind
  generalize tokens'.find? Token.isEnd = last' at hfind
  cases hfind with
  | some ht => exact ht
  | none => exact ⟨rfl, rfl, rfl⟩

theorem Parser.like_ofTokens (h : List.Forall₂ Token.SameText tokens tokens') :
    (Parser.ofTokens tokens).Like (.ofTokens tokens') := by
  refine ⟨?_, .empty, rfl⟩
  simp only [ofTokens]
  induction h with
  | nil => exact .nil
  | cons ht _ ih =>
    rw [List.takeWhile_cons, List.takeWhile_cons, ht.isEnd_eq]
    split
    · exact .cons ht ih
    · exact .nil

/-- The lines of tokens have no influence on their parse, but on the lines in its statements and
diagnostics. -/
theorem parse_mirrors (frames : Nat) (h : List.Forall₂ Token.SameText tokens tokens') :
    List.Forall₂ (Node.Like Token.SameText) (parse frames tokens).statements
        (parse frames tokens').statements ∧
      List.Forall₂ Diagnostic.SameText (parse frames tokens).diagnostics
        (parse frames tokens').diagnostics := by
  have hs := Source.like_ofTokens h
  obtain ⟨hstatements, hp⟩ := Parse.programOnto_mirrors hs frames (Source.ofTokens tokens).turns
    .empty (Parser.like_ofTokens h)
  simp only [parse, hs.turns]
  exact ⟨hstatements, hp.diagnostics⟩

end Lox
