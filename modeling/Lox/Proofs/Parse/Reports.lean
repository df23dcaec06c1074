import Lox.Proofs.Parse.Programs

/-!
What a parse reports, for any token list and any number of frames. All it complains about are tokens
that it was given. Main statement: each return of the statements that it gives is inside the body of a
function, or its keyword is reported.
-/

set_option autoImplicit false

namespace Lox

/-- The children that are not the body of a function. -/
def Node.openChildren : Node → List Node
  | .function name params _ => name :: params
  | n => n.children

/-- A tree has a return that is not inside the body of a function, with a keyword. -/
inductive Node.OpenReturn : Node → Node → Prop where
  | here (keyword value : Node) : OpenReturn (.ret keyword value) keyword
  | child {n c keyword : Node} (hc : c ∈ n.openChildren) (h : OpenReturn c keyword) :
      OpenReturn n keyword

namespace Parse

variable {α β : Type}

/-- What a step does that has only tokens of a sort to complain about. -/
structure Reports (T : Token → Prop) (p q : Parser) : Prop extends Advances p q where
  atTokens : ∀ d ∈ q.diagnostics, d ∈ p.diagnostics ∨ ∃ t c, T t ∧ d = .at t c

/-- At the end, outside all functions, the keywords of the open returns of a tree are reported. -/
def Settled (r : Parser) (n : Node) : Prop :=
  r.functionDepth = 0 → ∀ keyword, n.OpenReturn keyword →
    ∃ t, keyword = .token t ∧ .at t .strayReturn ∈ r.diagnostics

variable {T : Token → Prop} {r : Parser} {source : Source}

namespace Reports

theorem refl (p : Parser) : Reports T p p := ⟨.refl p, fun _ h => .inl h⟩

theorem trans {a b c : Parser} (h : Reports T a b) (h' : Reports T b c) : Reports T a c := by
  refine ⟨h.toAdvances.trans h'.toAdvances, fun d hd => ?_⟩
  rcases h'.atTokens d hd with hd | hd
  · exact h.atTokens d hd
  · exact .inr hd

theorem drop {p : Parser} {rest : List Token} (h : rest <:+ p.pending) :
    Reports T p { p with pending := rest } :=
  ⟨.drop h, fun _ hd => .inl hd⟩

theorem report (p : Parser) {t : Token} (ht : T t) (c : Complaint) :
    Reports T p (p.report (.at t c)) := by
  refine ⟨.report p _, fun d hd => ?_⟩
  rcases Array.mem_push.1 hd with hd | rfl
  · exact .inl hd
  · exact .inr ⟨t, c, ht, rfl⟩

theorem synchronize (p : Parser) : Reports T p p.synchronize := by
  refine ⟨.synchronize p, fun d hd => .inl ?_⟩
  unfold Parser.synchronize at hd
  split at hd <;> exact hd

theorem sorted {p q : Parser} (h : Reports T p q) (hp : ∀ t ∈ p.pending, T t) :
    ∀ t ∈ q.pending, T t := fun t ht => hp t (h.pending.subset ht)

end Reports

theorem Advances.mem_diagnostics {p q : Parser} (h : Advances p q) {d : Diagnostic}
    (hd : d ∈ p.diagnostics) : d ∈ q.diagnostics :=
  Array.mem_toList_iff.1 (h.diagnostics.subset (Array.mem_toList_iff.2 hd))

namespace Settled

theorem of_children {n : Node} (hn : ∀ k v, n ≠ .ret k v) (h : ∀ c ∈ n.openChildren, Settled r c) :
    Settled r n := by
  intro hd keyword ho
  cases ho with
  | here _ v => exact absurd rfl (hn keyword v)
  | child hc ho => exact h _ hc hd keyword ho

theorem token (t : Token) : Settled r (.token t) := of_children (by simp) nofun

theorem missing : Settled r .missing := of_children (by simp) nofun

theorem build {level : Level} {left right : Node} (operator : Token) (hl : Settled r left)
    (hr : Settled r right) : Settled r (level.build left operator right) := by
  unfold Level.build
  split <;> exact of_children (by simp)
    (List.forall_mem_cons.2 ⟨hl, List.forall_mem_cons.2 ⟨token operator, List.forall_mem_singleton.2 hr⟩⟩)

theorem ret {keyword value : Node} (hk : r.functionDepth = 0 →
      ∃ t, keyword = .token t ∧ .at t .strayReturn ∈ r.diagnostics)
    (hv : Settled r value) : Settled r (.ret keyword value) := by
  intro hd k ho
  cases ho with
  | here => exact hk hd
  | child hc ho =>
    rcases List.mem_cons.1 hc with rfl | hc
    · obtain ⟨t, rfl, -⟩ := hk hd
      exact token t hd k ho
    · obtain rfl := List.mem_singleton.1 hc
      exact hv hd k ho

theorem forLoop (keyword : Token) {initializer condition increment : Option Node} {body : Node}
    (hi : ∀ n ∈ initializer, Settled r n) (hc : ∀ n ∈ condition, Settled r n)
    (ha : ∀ n ∈ increment, Settled r n) (hb : Settled r body) :
    Settled r (.forLoop keyword initializer condition increment body) := by
  have hcondition : Settled r (condition.getD
      (.literal (.token ⟨.trueWord, .text "true", .null, keyword.line⟩))) := by
    cases condition with
    | none => exact of_children (by simp) (List.forall_mem_singleton.2 (token _))
    | some n => exact hc n rfl
  refine of_children (by simp [Node.forLoop]) (List.forall_mem_append.2 ⟨fun n hn => ?_, ?_⟩)
  · exact hi n (by simpa using hn)
  refine List.forall_mem_singleton.2 (of_children (by simp) ?_)
  refine List.forall_mem_cons.2 ⟨hcondition, ?_⟩
  refine List.forall_mem_singleton.2 (of_children (by simp) ?_)
  cases increment with
  | none => exact List.forall_mem_singleton.2 hb
  | some n => exact List.forall_mem_cons.2 ⟨hb, List.forall_mem_singleton.2
      (of_children (by simp) (List.forall_mem_singleton.2 (ha n rfl)))⟩

end Settled

/-- From one parser a step reports tokens of a sort only, and if the parse ends at `r`, what it gives
has a property. -/
structure MeetsAt (T : Token → Prop) (r : Parser) (Q : α → Prop) (step : Parse α) (p : Parser) :
    Prop where
  reports : Reports T p (step p).2
  result : ∀ a, (step p).1 = .ok a → Advances (step p).2 r → Q a

/-- The same from every parser whose tokens are of the sort. -/
def Meets (T : Token → Prop) (r : Parser) (Q : α → Prop) (step : Parse α) : Prop :=
  ∀ p, (∀ t ∈ p.pending, T t) → MeetsAt T r Q step p

namespace MeetsAt

theorem congr {Q : α → Prop} {x y : Parse α} {p : Parser} (h : MeetsAt T r Q y p) (he : x p = y p) :
    MeetsAt T r Q x p := by
  obtain ⟨hr, ha⟩ := h
  rw [← he] at hr ha
  exact ⟨hr, ha⟩

/-- A step that begins by going on to a later parser. -/
theorem after {Q : α → Prop} {x y : Parse α} {p q : Parser} (hpq : Reports T p q)
    (he : x p = y q) (h : MeetsAt T r Q y q) : MeetsAt T r Q x p := by
  obtain ⟨hr, ha⟩ := h
  rw [← he] at hr ha
  exact ⟨hpq.trans hr, ha⟩

end MeetsAt

namespace Meets

theorem mono {P Q : α → Prop} {step : Parse α} (h : Meets T r P step) (hPQ : ∀ a, P a → Q a) :
    Meets T r Q step := fun p hp =>
  ⟨(h p hp).reports, fun a ha hr => hPQ a ((h p hp).result a ha hr)⟩

theorem pure {Q : α → Prop} {a : α} (h : Q a) : Meets T r Q (pure a : Parse α) := by
  refine fun p _ => ⟨.refl p, fun b hb _ => ?_⟩
  obtain rfl : a = b := Except.ok.inj hb
  exact h

theorem throw {Q : α → Prop} (e : Abort) : Meets T r Q (throw e : Parse α) :=
  fun p _ => ⟨.refl p, nofun⟩

/-- What the first step gives has its property only if the parse ends at `r`, so the second one is
asked for its own under that condition. -/
theorem bind {P : α → Prop} {Q : β → Prop} {x : Parse α} {f : α → Parse β} (hx : Meets T r P x)
    (hf : ∀ a, Meets T r (fun b => P a → Q b) (f a)) : Meets T r Q (x >>= f) := by
  intro p hp
  obtain ⟨hr, ha⟩ := hx p hp
  cases hs : x p with
  | mk result q =>
    rw [hs] at hr ha
    cases result with
    | error e =>
      have he : (x >>= f) p = (.error e, q) := by rw [bind_apply, hs]
      exact MeetsAt.after hr he (throw (α := β) e q (hr.sorted hp))
    | ok a =>
      have he : (x >>= f) p = f a q := by rw [bind_apply, hs]
      obtain ⟨hr', hb⟩ := hf a q (hr.sorted hp)
      rw [← he] at hr' hb
      exact ⟨hr.trans hr', fun b h hend => hb b h hend (ha a rfl (hr'.toAdvances.trans hend))⟩

theorem map {P : α → Prop} {Q : β → Prop} {x : Parse α} {f : α → β} (hx : Meets T r P x)
    (h : ∀ a, P a → Q (f a)) : Meets T r Q (f <$> x) := by
  rw [map_eq_pure_bind]
  exact hx.bind fun a => pure (h a)

theorem ite {Q : α → Prop} {c : Prop} [Decidable c] {x y : Parse α} (hx : Meets T r Q x)
    (hy : Meets T r Q y) : Meets T r Q (if c then x else y) := by
  split
  · exact hx
  · exact hy

theorem look {Q : β → Prop} {x : Parse α} {f : α → Parse β} (hx : ∀ p, ∃ a, x p = (.ok a, p))
    (hf : ∀ a, Meets T r Q (f a)) : Meets T r Q (x >>= f) := by
  intro p hp
  obtain ⟨a, ha⟩ := hx p
  refine (hf a p hp).congr ?_
  rw [bind_apply, ha]

theorem nextIs {Q : β → Prop} {kind : Kind} {f : Bool → Parse β} (hf : ∀ b, Meets T r Q (f b)) :
    Meets T r Q (Parse.nextIs source kind >>= f) :=
  look (fun p => ⟨_, nextIs_apply source kind p⟩) hf

theorem report {Q : β → Prop} {t : Token} (ht : T t) (c : Complaint) {f : Unit → Parse β}
    (hf : Meets T r Q (f ())) : Meets T r Q (Parse.report t c >>= f) := fun p hp =>
  MeetsAt.after (.report p ht c) (by rw [bind_apply, report_apply])
    (hf _ ((Reports.report p ht c).sorted hp))

section Tokens

variable (hl : T source.last)
include hl

theorem headD {p : Parser} (hp : ∀ t ∈ p.pending, T t) : T (p.pending.headD source.last) := by
  cases hq : p.pending with
  | nil => exact hl
  | cons t rest => exact hp t (by rw [hq]; exact List.mem_cons_self)

theorem peek {Q : β → Prop} {f : Token → Parse β} (hf : ∀ t, T t → Meets T r Q (f t)) :
    Meets T r Q (Parse.peek source >>= f) := fun p hp =>
  (hf _ (headD hl hp) p hp).congr (by rw [bind_apply, peek_apply])

theorem advance {Q : β → Prop} {f : Token → Parse β} (hf : ∀ t, T t → Meets T r Q (f t)) :
    Meets T r Q (Parse.advance source >>= f) := fun p hp =>
  have hdrop := Reports.drop (T := T) (p.pending.tail_suffix)
  MeetsAt.after hdrop (by rw [bind_apply, advance_apply]) (hf _ (headD hl hp) _ (hdrop.sorted hp))

theorem accept {Q : β → Prop} {kinds : List Kind} {f : Option Token → Parse β}
    (hn : Meets T r Q (f none)) (hs : ∀ t, T t → Meets T r Q (f (some t))) :
    Meets T r Q (accept? source kinds >>= f) := by
  intro p hp
  by_cases hc : kinds.contains (p.pending.headD source.last).kind
  · have hdrop := Reports.drop (T := T) (p.pending.tail_suffix)
    exact MeetsAt.after hdrop (by rw [bind_apply, accept?_apply, if_pos hc])
      (hs _ (headD hl hp) _ (hdrop.sorted hp))
  · exact (hn p hp).congr (by rw [bind_apply, accept?_apply, if_neg hc])

theorem fail {Q : α → Prop} (c : Complaint) : Meets T r Q (Parse.fail source c : Parse α) :=
  fun p hp => ⟨.report p (headD hl hp) c, nofun⟩

theorem expect {Q : β → Prop} {kind : Kind} {c : Complaint} {f : Token → Parse β}
    (hf : ∀ t, T t → Meets T r Q (f t)) : Meets T r Q (Parse.expect source kind c >>= f) := by
  intro p hp
  by_cases hc : (p.pending.headD source.last).kind = kind
  · have hdrop := Reports.drop (T := T) (p.pending.tail_suffix)
    exact MeetsAt.after hdrop (by rw [bind_apply, expect_apply, if_pos hc])
      (hf _ (headD hl hp) _ (hdrop.sorted hp))
  · refine ⟨?_, ?_⟩ <;> rw [bind_apply, expect_apply, if_neg hc]
    · exact .report p (headD hl hp) c
    · exact nofun

theorem reportIf {Q : β → Prop} {q : Prop} [Decidable q] (c : Complaint) {x : Parse β}
    (hx : Meets T r Q x) :
    Meets T r Q (if q then (do let t ← Parse.peek source; Parse.report t c; x) else x) :=
  ite (peek hl fun _ ht => report ht c hx) hx

theorem separated {item : Parse Node} {excess : Complaint} (hi : Meets T r (Settled r) item)
    (turns : Nat) (done : Array Node) : Meets T r (fun ns => (∀ n ∈ done, Settled r n) →
      ∀ n ∈ ns, Settled r n) (Parse.separated source excess item turns done) := by
  induction turns generalizing done with
  | zero => exact pure (by simp)
  | succ turns ih =>
    have hpush : ∀ n, Settled r n → (∀ m ∈ done, Settled r m) → ∀ m ∈ done.push n, Settled r m := by
      intro n hn hd m hm
      rcases Array.mem_push.1 hm with hm | rfl
      · exact hd m hm
      · exact hn
    simp only [Parse.separated]
    refine reportIf hl excess (hi.bind fun n => accept hl (pure fun hn hd => ?_) fun _ _ => ?_)
    · exact fun m hm => hpush n hn hd m (Array.mem_toList_iff.1 hm)
    · exact (ih (done.push n)).mono fun ns h hn hd => h (hpush n hn hd)

end Tokens

/-- A complaint that is made outside all functions is among the diagnostics in the end. -/
theorem reportOutside {Q : β → Prop} {t : Token} (ht : T t) (c : Complaint) {x : Parse β}
    (hx : Meets T r (fun b => (r.functionDepth = 0 → .at t c ∈ r.diagnostics) → Q b) x) :
    Meets T r Q (get >>= fun p : Parser =>
      if p.functionDepth = 0 then Parse.report t c >>= fun _ => x else x) := by
  intro p hp
  -- No step changes the depth, so it is at the end what it is here.
  by_cases hd : p.functionDepth = 0
  · have hreport := Reports.report p ht c
    obtain ⟨hr, hb⟩ := hx _ (hreport.sorted hp)
    have he : (get >>= fun p : Parser => if p.functionDepth = 0 then Parse.report t c >>= fun _ => x
        else x) p = x (p.report (.at t c)) := by
      simp only [bind_apply, get_apply, if_pos hd, report_apply]
    rw [← he] at hr hb
    refine ⟨hreport.trans hr, fun b h hend => hb b h hend fun _ => ?_⟩
    exact (hr.toAdvances.trans hend).mem_diagnostics Array.mem_push_self
  · obtain ⟨hr, hb⟩ := hx p hp
    have he : (get >>= fun p : Parser => if p.functionDepth = 0 then Parse.report t c >>= fun _ => x
        else x) p = x p := by
      simp only [bind_apply, get_apply, if_neg hd]
    rw [← he] at hr hb
    refine ⟨hr, fun b h hend => hb b h hend fun hdepth => absurd ?_ hd⟩
    rw [← (hr.toAdvances.trans hend).functionDepth, hdepth]

/-- The body of a function may have open returns. -/
theorem inFunction {P Q : α → Prop} {step : Parse α} (h : Meets T r P step) (hQ : ∀ a, Q a) :
    Meets T r Q (Parse.inFunction step) := by
  intro p hp
  have hr := (h { p with functionDepth := p.functionDepth + 1 } hp).reports
  refine ⟨⟨⟨hr.pending, hr.diagnostics, ?_⟩, hr.atTokens⟩, fun a _ _ => hQ a⟩
  exact congrArg (· - 1) hr.functionDepth

theorem recover {Q : α → Prop} {step : Parse α} (h : Meets T r Q step) :
    Meets T r (fun o => ∀ a ∈ o, Q a) (Parse.recover step) := by
  intro p hp
  obtain ⟨hr, ha⟩ := h p hp
  cases hs : step p with
  | mk result q =>
    rw [hs] at hr ha
    constructor <;> unfold Parse.recover <;> rw [hs]
    · rcases result with (_ | _) | a
      · exact hr.trans (.synchronize q)
      · exact hr
      · exact hr
    · rcases result with (_ | _) | a
      · intro o ho _ b hb
        obtain rfl := Except.ok.inj ho
        cases hb
      · intro o ho
        cases ho
      · intro o ho hend b hb
        obtain rfl := Except.ok.inj ho
        obtain rfl := Option.some.inj hb
        exact ha a rfl hend

theorem extend {step : Node → Parse (Option Node)}
    (hs : ∀ n, Meets T r (fun o => Settled r n → ∀ m ∈ o, Settled r m) (step n)) (turns : Nat)
    (n : Node) : Meets T r (fun m => Settled r n → Settled r m) (Parse.extend step turns n) := by
  induction turns generalizing n with
  | zero => exact pure id
  | succ turns ih =>
    refine (hs n).bind fun o => ?_
    cases o with
    | none => exact pure fun _ hn => hn
    | some m => exact (ih m).mono fun l hl h hn => hl (h hn m rfl)

theorem untilBrace {item : Parse (Option Node)}
    (hi : Meets T r (fun o => ∀ n ∈ o, Settled r n) item) (turns : Nat) (done : Array Node) :
    Meets T r (fun ns => (∀ n ∈ done, Settled r n) → ∀ n ∈ ns, Settled r n)
      (Parse.untilBrace source item turns done) := by
  induction turns generalizing done with
  | zero => exact pure (by simp)
  | succ turns ih =>
    refine nextIs fun _ => look (fun p => ⟨_, atEnd_apply p⟩) fun _ => ite (pure (by simp)) ?_
    refine hi.bind fun o => ?_
    cases o with
    | none => exact (ih done).mono fun ns h _ => h
    | some n =>
      refine (ih (done.push n)).mono fun ns h hn hd => h fun m hm => ?_
      rcases Array.mem_push.1 hm with hm | rfl
      · exact hd m hm
      · exact hn m rfl

end Meets

/-- The rules of expressions with some frames. -/
structure ExpressionsMeet (T : Token → Prop) (r : Parser) (source : Source) (frames : Nat) :
    Prop where
  expression : Meets T r (Settled r) (expression source frames)
  assignment : Meets T r (Settled r) (assignment source frames)
  operand : ∀ levels, Meets T r (Settled r) (operand source frames levels)
  call : Meets T r (Settled r) (call source frames)
  finishCall : ∀ callee, Meets T r (fun n => Settled r callee → Settled r n)
    (finishCall source frames callee)
  primary : Meets T r (Settled r) (primary source frames)

namespace ExpressionsMeet

variable {frames : Nat} (hl : T source.last) (ih : ExpressionsMeet T r source frames)
include hl ih

theorem assignment_succ : Meets T r (Settled r) (Parse.assignment source (frames + 1)) := by
  simp only [Parse.assignment]
  refine (ih.operand Level.all).bind fun target => .accept hl (.pure id) fun equals ht => ?_
  refine ih.assignment.bind fun value => ?_
  cases target with
  | «variable» name =>
    refine .pure fun hv hn => .of_children (by simp) (List.forall_mem_cons.2 ⟨?_, ?_⟩)
    · intro hd k ho
      exact hn hd k (.child List.mem_cons_self ho)
    · exact List.forall_mem_singleton.2 hv
  | _ => exact .report ht .invalidTarget (.pure fun _ hn => hn)

theorem operand_succ (levels : List Level) :
    Meets T r (Settled r) (Parse.operand source (frames + 1) levels) := by
  cases levels with
  | nil =>
    simp only [Parse.operand]
    refine .accept hl ih.call fun operator _ => (ih.operand []).bind fun right => .pure fun hr => ?_
    exact .of_children (by simp)
      (List.forall_mem_cons.2 ⟨.token operator, List.forall_mem_singleton.2 hr⟩)
  | cons level tighter =>
    simp only [Parse.operand]
    refine (ih.operand tighter).bind fun left => .extend (fun left => ?_) source.turns left
    refine .accept hl (.pure fun _ => by simp) fun operator _ => ?_
    refine (ih.operand tighter).bind fun right => .pure fun hr hleft m hm => ?_
    obtain rfl := Option.some.inj hm
    exact .build operator hleft hr

theorem call_succ : Meets T r (Settled r) (Parse.call source (frames + 1)) := by
  simp only [Parse.call]
  refine ih.primary.bind fun callee => .extend (fun callee => ?_) source.turns callee
  refine .accept hl (.pure fun _ => by simp) fun _ _ => ?_
  refine (ih.finishCall callee).bind fun n => .pure fun h hc m hm => ?_
  obtain rfl := Option.some.inj hm
  exact h hc

theorem finishCall_succ (callee : Node) : Meets T r (fun n => Settled r callee → Settled r n)
    (Parse.finishCall source (frames + 1) callee) := by
  have hclose : ∀ ns, Meets T r
      (fun n => (∀ m ∈ ns, Settled r m) → Settled r callee → Settled r n) (do
        let paren ← Parse.expect source .rightParen (.missing ')' .arguments)
        return .call callee (.token paren) ns) := by
    refine fun ns => .expect hl fun paren _ => .pure fun hns hc => .of_children (by simp) ?_
    exact List.forall_mem_cons.2 ⟨hc, List.forall_mem_cons.2 ⟨.token paren, hns⟩⟩
  simp only [Parse.finishCall]
  refine .nextIs fun _ =>
    .ite (.bind (.pure (Q := fun ns => ∀ m ∈ ns, Settled r m) (by simp)) hclose) ?_
  have hall : Meets T r (fun ns => ∀ n ∈ ns, Settled r n)
      (separated source .tooManyArguments (Parse.expression source frames) source.turns #[]) :=
    (Meets.separated hl ih.expression source.turns #[]).mono fun ns h => h (by simp)
  exact hall.bind hclose

theorem primary_succ : Meets T r (Settled r) (Parse.primary source (frames + 1)) := by
  have hleaf : ∀ n, (∀ k v, n ≠ .ret k v) → (∃ t, n.openChildren = [.token t]) → Settled r n := by
    rintro n hn ⟨t, ht⟩
    exact .of_children hn (by rw [ht]; exact List.forall_mem_singleton.2 (.token t))
  simp only [Parse.primary]
  refine .peek hl fun t _ => .ite ?_ (.ite ?_ (.ite ?_ (.fail hl _)))
  · exact .advance hl fun t _ => .pure (hleaf _ (by simp) ⟨t, rfl⟩)
  · exact .advance hl fun t _ => .pure (hleaf _ (by simp) ⟨t, rfl⟩)
  · refine .advance hl fun _ _ => ih.expression.bind fun value => .expect hl fun _ _ => .pure ?_
    exact fun hv => .of_children (by simp) (List.forall_mem_singleton.2 hv)

end ExpressionsMeet

theorem expressionsMeet (hl : T source.last) (r : Parser) (frames : Nat) :
    ExpressionsMeet T r source frames := by
  induction frames with
  | zero => constructor <;> intros <;> exact .throw _
  | succ frames ih =>
    exact ⟨ih.assignment, ih.assignment_succ hl, ih.operand_succ hl, ih.call_succ hl,
      ih.finishCall_succ hl, ih.primary_succ hl⟩

section Clauses

variable {frames : Nat} (hl : T source.last)
include hl

theorem varDeclaration_meets : Meets T r (Settled r) (varDeclaration source frames) := by
  have ih := expressionsMeet hl r frames
  have hclose : ∀ (name : Token) n, Meets T r (fun m => Settled r n → Settled r m) (do
      let _ ← expect source .semicolon (.missing ';' .variableDeclaration)
      return .var (.token name) n) := by
    refine fun name n => .expect hl fun _ _ => .pure fun hn => .of_children (by simp) ?_
    exact List.forall_mem_cons.2 ⟨.token name, List.forall_mem_singleton.2 hn⟩
  simp only [varDeclaration]
  refine .expect hl fun name _ => .accept hl ?_ fun _ _ => ih.expression.bind (hclose name)
  exact .bind (.pure .missing) (hclose name)

theorem expressionStatement_meets :
    Meets T r (Settled r) (expressionStatement source frames) := by
  have ih := expressionsMeet hl r frames
  simp only [expressionStatement]
  refine ih.expression.bind fun n => .expect hl fun _ _ => .pure fun hn => ?_
  exact .of_children (by simp) (List.forall_mem_singleton.2 hn)

theorem printStatement_meets : Meets T r (Settled r) (printStatement source frames) := by
  have ih := expressionsMeet hl r frames
  simp only [printStatement]
  refine ih.expression.bind fun n => .expect hl fun _ _ => .pure fun hn => ?_
  exact .of_children (by simp) (List.forall_mem_singleton.2 hn)

theorem returnStatement_meets {keyword : Token} (ht : T keyword) :
    Meets T r (Settled r) (returnStatement source frames keyword) := by
  have ih := expressionsMeet hl r frames
  have hclose : ∀ n, Meets T r (fun m => Settled r n →
      (r.functionDepth = 0 → .at keyword .strayReturn ∈ r.diagnostics) → Settled r m) (do
        let _ ← expect source .semicolon (.missing ';' .returnValue)
        return Node.ret (.token keyword) n) := by
    refine fun n => .expect hl fun _ _ => .pure fun hn hk => ?_
    exact .ret (fun hd => ⟨keyword, rfl, hk hd⟩) hn
  simp only [returnStatement]
  refine .reportOutside ht .strayReturn (.nextIs fun _ => .ite ?_ (ih.expression.bind hclose))
  exact .bind (.pure .missing) hclose

theorem parameters_meets : Meets T r (fun ns => ∀ n ∈ ns, Settled r n) (parameters source) := by
  have hname : Meets T r (Settled r)
      (.token <$> expect source .identifier (.missingName .parameter)) := by
    rw [map_eq_pure_bind]
    exact .expect hl fun t _ => .pure (.token t)
  refine .nextIs fun _ => .ite (.pure (by simp)) ?_
  exact (Meets.separated hl hname source.turns #[]).mono fun ns h => h (by simp)

theorem forInitializer_meets :
    Meets T r (fun o => ∀ n ∈ o, Settled r n) (forInitializer source frames) := by
  have hsome : ∀ n, Meets T r (fun o => Settled r n → ∀ m ∈ o, Settled r m) (pure (some n)) := by
    refine fun n => .pure fun hn m hm => ?_
    obtain rfl := Option.some.inj hm
    exact hn
  have hvar : Meets T r (fun o => ∀ n ∈ o, Settled r n)
      (varDeclaration source frames >>= fun n => pure (some n)) :=
    (varDeclaration_meets hl).bind hsome
  have hvalue : Meets T r (fun o => ∀ n ∈ o, Settled r n)
      (expressionStatement source frames >>= fun n => pure (some n)) :=
    (expressionStatement_meets hl).bind hsome
  simp only [forInitializer]
  refine .accept hl (.ite (.pure (by simp)) ?_) fun _ _ => .ite (.pure (by simp)) ?_
  all_goals exact .accept hl (.ite hvar hvalue) fun _ _ => .ite hvar hvalue

theorem forClause_meets (closing : Kind) (c : Complaint) :
    Meets T r (fun o => ∀ n ∈ o, Settled r n) (forClause source frames closing c) := by
  have ih := expressionsMeet hl r frames
  have hclose : ∀ o : Option Node, Meets T r
      (fun o' => (∀ n ∈ o, Settled r n) → ∀ n ∈ o', Settled r n) (do
        let _ ← expect source closing c
        return o) := fun o => .expect hl fun _ _ => .pure id
  simp only [forClause]
  refine .nextIs fun _ =>
    .ite (.bind (.pure (Q := fun o => ∀ n ∈ o, Settled r n) (by simp)) hclose) ?_
  refine (ih.expression.map fun n hn m hm => ?_).bind hclose
  obtain rfl := Option.some.inj hm
  exact hn

end Clauses

/-- The rules of statements with some frames. -/
structure StatementsMeet (T : Token → Prop) (r : Parser) (source : Source) (frames : Nat) :
    Prop where
  declaration : Meets T r (fun o => ∀ n ∈ o, Settled r n) (declaration source frames)
  functionDeclaration : Meets T r (Settled r) (functionDeclaration source frames)
  block : Meets T r (fun ns => ∀ n ∈ ns, Settled r n) (block source frames)
  statement : Meets T r (Settled r) (statement source frames)
  ifStatement : Meets T r (Settled r) (ifStatement source frames)
  whileStatement : Meets T r (Settled r) (whileStatement source frames)
  forStatement : ∀ keyword, T keyword → Meets T r (Settled r) (forStatement source frames keyword)

namespace StatementsMeet

variable {frames : Nat} (hl : T source.last) (ih : StatementsMeet T r source frames)
include hl ih

theorem declaration_succ : Meets T r (fun o => ∀ n ∈ o, Settled r n)
    (Parse.declaration source (frames + 1)) := by
  have hvar : Meets T r (Settled r) (varDeclaration source frames) := varDeclaration_meets hl
  simp only [Parse.declaration]
  refine .recover (.accept hl (.ite hvar ?_) fun _ _ => .ite hvar ?_)
  all_goals
    exact .accept hl (.ite ih.functionDeclaration ih.statement)
      fun _ _ => .ite ih.functionDeclaration ih.statement

theorem functionDeclaration_succ :
    Meets T r (Settled r) (Parse.functionDeclaration source (frames + 1)) := by
  simp only [Parse.functionDeclaration]
  refine .expect hl fun name _ => .expect hl fun _ _ => (parameters_meets hl).bind fun params => ?_
  refine .expect hl fun _ _ => .expect hl fun _ _ => ?_
  refine (Meets.inFunction ih.block fun _ => trivial).bind fun body => .pure fun _ hparams => ?_
  exact .of_children (by simp) (List.forall_mem_cons.2 ⟨.token name, hparams⟩)

theorem block_succ : Meets T r (fun ns => ∀ n ∈ ns, Settled r n)
    (Parse.block source (frames + 1)) := by
  simp only [Parse.block]
  refine (Meets.untilBrace ih.declaration source.turns #[]).bind fun ns => ?_
  exact .expect hl fun _ _ => .pure fun h => h (by simp)

theorem ifStatement_succ : Meets T r (Settled r) (Parse.ifStatement source (frames + 1)) := by
  have he := expressionsMeet hl r frames
  have hall : ∀ {c n e : Node}, Settled r c → Settled r n → Settled r e →
      Settled r (.ifElse c n e) := fun hc hn he => .of_children (by simp)
    (List.forall_mem_cons.2 ⟨hc, List.forall_mem_cons.2 ⟨hn, List.forall_mem_singleton.2 he⟩⟩)
  simp only [Parse.ifStatement]
  refine .expect hl fun _ _ => he.expression.bind fun c => .expect hl fun _ _ => ?_
  refine ih.statement.bind fun n => .accept hl (.pure fun hn hc => hall hc hn .missing) fun _ _ => ?_
  exact ih.statement.bind fun e => .pure fun he hn hc => hall hc hn he

theorem whileStatement_succ : Meets T r (Settled r) (Parse.whileStatement source (frames + 1)) := by
  have he := expressionsMeet hl r frames
  simp only [Parse.whileStatement]
  refine .expect hl fun _ _ => he.expression.bind fun c => .expect hl fun _ _ => ?_
  refine ih.statement.bind fun n => .pure fun hn hc => .of_children (by simp) ?_
  exact List.forall_mem_cons.2 ⟨hc, List.forall_mem_singleton.2 hn⟩

theorem forStatement_succ (keyword : Token) (_ : T keyword) :
    Meets T r (Settled r) (Parse.forStatement source (frames + 1) keyword) := by
  simp only [Parse.forStatement]
  refine .expect hl fun _ _ => (forInitializer_meets hl).bind fun before => ?_
  refine (forClause_meets hl _ _).bind fun c => (forClause_meets hl _ _).bind fun after => ?_
  refine ih.statement.bind fun n => .pure fun hn hafter hc hbefore => ?_
  exact .forLoop keyword hbefore hc hafter hn

theorem statement_succ : Meets T r (Settled r) (Parse.statement source (frames + 1)) := by
  simp only [Parse.statement]
  refine .peek hl fun t ht => ?_
  generalize t.kind = kind
  split
  · exact .advance hl fun _ _ => printStatement_meets hl
  · exact .advance hl fun _ _ => ih.block.map fun ns hns => .of_children (by simp) hns
  · exact .advance hl fun _ _ => ih.ifStatement
  · exact .advance hl fun _ _ => ih.whileStatement
  · exact .advance hl fun _ _ => ih.forStatement t ht
  · exact .advance hl fun _ _ => returnStatement_meets hl ht
  · exact expressionStatement_meets hl

end StatementsMeet

theorem statementsMeet (hl : T source.last) (r : Parser) (frames : Nat) :
    StatementsMeet T r source frames := by
  induction frames with
  | zero => constructor <;> intros <;> exact .throw _
  | succ frames ih =>
    exact ⟨ih.declaration_succ hl, ih.functionDeclaration_succ hl, ih.block_succ hl,
      ih.statement_succ hl, ih.ifStatement_succ hl, ih.whileStatement_succ hl,
      ih.forStatement_succ hl⟩

section Programs

variable (hl : T source.last) (frames : Nat)
include hl

theorem programOnto_reports (turns : Nat) (done : Array Node) (p : Parser)
    (hp : ∀ t ∈ p.pending, T t) : Reports T p (programOnto source frames turns done p).2 := by
  induction turns generalizing done p with
  | zero => exact .refl p
  | succ turns ih =>
    have hr := ((statementsMeet hl p frames).declaration p hp).reports
    have hnext : ∀ done p', Reports T p p' → Reports T p (programOnto source frames turns done p').2 :=
      fun done p' h => h.trans (ih done p' (h.sorted hp))
    cases hq : p.pending with
    | nil => rw [programOnto, hq]; exact .refl p
    | cons first rest =>
      have hfirst : T first := hp first (by rw [hq]; exact List.mem_cons_self)
      rw [programOnto_succ hq]
      cases hs : declaration source frames p with
      | mk result p' =>
        rw [hs] at hr
        rcases result with (_ | _) | _ | n
        · exact hnext done p' hr
        · exact hnext done _ ((hr.trans (.report p' hfirst _)).trans (.synchronize _))
        · exact hnext done p' hr
        · exact hnext (done.push n) p' hr

theorem programOnto_settled (turns : Nat) (done : Array Node) (p : Parser)
    (hp : ∀ t ∈ p.pending, T t) (hr : (programOnto source frames turns done p).2 = r)
    (hdone : ∀ n ∈ done, Settled r n) :
    ∀ n ∈ (programOnto source frames turns done p).1, Settled r n := by
  induction turns generalizing done p with
  | zero => exact hdone
  | succ turns ih =>
    cases hq : p.pending with
    | nil => rw [programOnto, hq]; exact hdone
    | cons first rest =>
      have hfirst : T first := hp first (by rw [hq]; exact List.mem_cons_self)
      obtain ⟨hs, hn⟩ := (statementsMeet hl r frames).declaration p hp
      rw [programOnto_succ hq] at hr ⊢
      cases hd : declaration source frames p with
      | mk result p' =>
        rw [hd] at hr hs hn
        have hp' := hs.sorted hp
        rcases result with (_ | _) | _ | n
        · exact ih done p' hp' hr hdone
        · have hnext := (Reports.report p' hfirst .tooMuchNesting).trans (.synchronize _)
          exact ih done _ (hnext.sorted hp') hr hdone
        · exact ih done p' hp' hr hdone
        · have hend : Advances p' r :=
            hr ▸ (programOnto_reports hl frames turns (done.push n) p' hp').toAdvances
          refine ih (done.push n) p' hp' hr fun m hm => ?_
          rcases Array.mem_push.1 hm with hm | rfl
          · exact hdone m hm
          · exact hn _ rfl hend m rfl

end Programs

end Parse

/-- All that a parse complains about are the tokens that it was given and the end mark. -/
theorem parse_reports {T : Token → Prop} (frames : Nat) {tokens : List Token}
    (ht : ∀ t ∈ tokens, T t) (hl : T (Source.ofTokens tokens).last) :
    ∀ d ∈ (parse frames tokens).diagnostics, ∃ t c, T t ∧ d = .at t c := by
  intro d hd
  have hr := Parse.programOnto_reports hl frames (Source.ofTokens tokens).turns #[]
    (.ofTokens tokens) fun t h => ht t (List.takeWhile_subset _ h)
  rcases hr.atTokens d (Array.mem_toList_iff.1 hd) with h | h
  · exact absurd h (by simp [Parser.ofTokens])
  · exact h

/-- Every return of a parse's statements is inside the body of a function, or its keyword is reported. -/
theorem parse_openReturn (frames : Nat) (tokens : List Token) {n keyword : Node}
    (hn : n ∈ (parse frames tokens).statements) (ho : n.OpenReturn keyword) :
    ∃ t, keyword = .token t ∧ .at t .strayReturn ∈ (parse frames tokens).diagnostics := by
  have hr := @Parse.programOnto_reports (fun _ => True) (.ofTokens tokens) trivial frames
    (tokens.length + 1) #[] (.ofTokens tokens) fun _ _ => trivial
  have hs := @Parse.programOnto_settled (fun _ => True) _ (.ofTokens tokens) trivial frames
    (tokens.length + 1) #[] (.ofTokens tokens) (fun _ _ => trivial) rfl (by simp)
  obtain ⟨t, rfl, ht⟩ := hs n (Array.mem_toList_iff.1 hn) hr.functionDepth keyword ho
  exact ⟨t, rfl, Array.mem_toList_iff.2 ht⟩

end Lox
