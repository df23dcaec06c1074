import Lox.Node.Record
import Lox.Proofs.Run.Likeness
import Lox.Proofs.Run.Sessions

/-!
What can be wrong with a tree, and what comes of it. A flaw is a place of the tree where something else
stands than the evaluator needs there. Loading a tree asks for no kinds of children, so a loaded tree may
have flaws; the trees of source texts have none. Main statement: the run of a tree, if it ends, ends well,
with a fault of the program, or at a flaw of this tree or of one that ran on the machine before.
-/

set_option autoImplicit false

namespace Lox

namespace Node

/-- The flaws of a place for a token. -/
def tokenFlaws : Node → List Malformed
  | .token _ => []
  | _ => [.noToken]

/-- The flaws of a place for a name. -/
def nameFlaws : Node → List Malformed
  | .token t => if t.name? = none then [.noName] else []
  | _ => [.noToken]

/-- The flaws of a place that may be left empty. -/
def unlessMissing (flaws : List Malformed) : Node → List Malformed
  | .missing => []
  | _ => flaws

@[simp] theorem unlessMissing_nil (n : Node) : n.unlessMissing [] = [] := by
  cases n <;> rfl

mutual

/-- The flaws of a place for an expression, in the order in which evaluation meets them. The closing
parenthesis of a call is not looked at, as it only tells a line. -/
def expressionFlaws : Node → List Malformed
  | .literal t => t.tokenFlaws
  | .grouping value => expressionFlaws value
  | .variable name => name.nameFlaws
  | .assign name value => expressionFlaws value ++ name.nameFlaws
  | .unary operator right => expressionFlaws right ++ operator.tokenFlaws
  | .binary left operator right =>
    expressionFlaws left ++ expressionFlaws right ++ operator.tokenFlaws
  | .logical left operator right =>
    expressionFlaws left ++ operator.tokenFlaws ++ expressionFlaws right
  | .call callee _ arguments => expressionFlaws callee ++ allExpressionFlaws arguments
  | n => [.noExpression n]

def allExpressionFlaws : List Node → List Malformed
  | [] => []
  | n :: ns => expressionFlaws n ++ allExpressionFlaws ns

end

mutual

/-- The flaws of a place for a statement. The keyword of a return is not looked at. -/
def statementFlaws : Node → List Malformed
  | .expression value => value.expressionFlaws
  | .print value => value.expressionFlaws
  | .var name initializer => initializer.unlessMissing initializer.expressionFlaws ++ name.nameFlaws
  | .block statements => allStatementFlaws statements
  | .ifElse condition thenBranch elseBranch =>
    condition.expressionFlaws ++ statementFlaws thenBranch ++
      elseBranch.unlessMissing (statementFlaws elseBranch)
  | .whileDo condition body => condition.expressionFlaws ++ statementFlaws body
  | .function name params body => name.nameFlaws ++ params.flatMap nameFlaws ++ bodyFlaws body
  | .ret _ value => value.unlessMissing value.expressionFlaws
  | n => [.noStatement n]

/-- The flaws of a place for the body of a function. -/
def bodyFlaws : Node → List Malformed
  | .block statements => allStatementFlaws statements
  | _ => [.noBlock]

def allStatementFlaws : List Node → List Malformed
  | [] => []
  | n :: ns => statementFlaws n ++ allStatementFlaws ns

end

@[simp] theorem allExpressionFlaws_eq (ns : List Node) :
    allExpressionFlaws ns = ns.flatMap expressionFlaws := by
  induction ns with
  | nil => rfl
  | cons n ns ih => rw [allExpressionFlaws, ih, List.flatMap_cons]

@[simp] theorem allStatementFlaws_eq (ns : List Node) :
    allStatementFlaws ns = ns.flatMap statementFlaws := by
  induction ns with
  | nil => rfl
  | cons n ns ih => rw [allStatementFlaws, ih, List.flatMap_cons]

end Node

/-- The flaws of a program. -/
def Program.flaws (p : Program) : List Malformed := p.flatMap Node.statementFlaws

/-- The flaws of a function's declaration that show when it is called. -/
def Closure.flaws (c : Closure) : List Malformed := c.params.flatMap Node.nameFlaws ++ c.body.bodyFlaws

/-- The flaws of the programs that ran in a session. -/
def History.flaws (past : History) : List Malformed := past.flatMap fun run => Program.flaws run.1

namespace Node

variable {T : Token → Prop}

theorem IsName.nameFlaws_eq (hT : ∀ t, T t → t.IsScanned) {n : Node} (h : n.IsName T) :
    n.nameFlaws = [] := by
  obtain ⟨ht, _⟩ := h
  exact if_neg (hT _ ht).name?_ne_none

theorem IsExpression.flaws_eq (hT : ∀ t, T t → t.IsScanned) {n : Node} (h : n.IsExpression T) :
    n.expressionFlaws = [] := by
  induction h with
  | literal => rfl
  | grouping _ ih => exact ih
  | «variable» ht hk => exact IsName.nameFlaws_eq hT (.mk ht hk)
  | assign ht hk _ ih => simp [expressionFlaws, ih, IsName.nameFlaws_eq hT (.mk ht hk)]
  | unary _ _ _ ih => simp [expressionFlaws, ih, tokenFlaws]
  | logical _ _ _ _ ihl ihr => simp [expressionFlaws, ihl, ihr, tokenFlaws]
  | binary _ _ _ _ ihl ihr => simp [expressionFlaws, ihl, ihr, tokenFlaws]
  | call _ _ _ _ ih ihs => simpa [expressionFlaws, ih] using ihs

theorem IsStatement.flaws_eq (hT : ∀ t, T t → t.IsScanned) {n : Node} (h : n.IsStatement T) :
    n.statementFlaws = [] := by
  induction h with
  | expression h => exact h.flaws_eq hT
  | print h => exact h.flaws_eq hT
  | bareVar hn => simp [statementFlaws, unlessMissing, hn.nameFlaws_eq hT]
  | var hn h => simp [statementFlaws, h.flaws_eq hT, hn.nameFlaws_eq hT]
  | block _ ih => simpa [statementFlaws] using ih
  | ifThen hc _ ih => simp [statementFlaws, unlessMissing, hc.flaws_eq hT, ih]
  | ifElse hc _ _ ih ihe => simp [statementFlaws, hc.flaws_eq hT, ih, ihe]
  | whileDo hc _ ih => simp [statementFlaws, hc.flaws_eq hT, ih]
  | function hn hp _ ih =>
    have hparams := fun p hp' => (hp p hp').nameFlaws_eq hT
    simpa [statementFlaws, bodyFlaws, hn.nameFlaws_eq hT] using ⟨hparams, ih⟩
  | bareReturn => rfl
  | «return» _ _ h => simp [statementFlaws, h.flaws_eq hT]

end Node

/-- The trees of source texts have no flaws. -/
theorem Program.flaws_ofSource {frames : Nat} {text : String} {p : Program}
    (h : ofSource frames text = .ok p) : p.flaws = [] :=
  List.flatMap_eq_nil_iff.2 fun n hn =>
    ((wellFormed_ofSource h).2.2 n hn).flaws_eq fun _ ht => ht

variable {flaws : List Malformed}

/-- If the value is a function, the flaws of its declaration are among these. -/
def Value.Within (flaws : List Malformed) (v : Value) : Prop :=
  ∀ c, v.closure? = some c → c.flaws ⊆ flaws

theorem Value.within_of_none {v : Value} (h : v.closure? = none) : v.Within flaws := by
  intro c hc
  rw [h] at hc
  cases hc

/-- An error of the running program. There is no telling its line if it is at a call whose closing
parenthesis is no token. -/
inductive Stop.IsRuntimeError : Stop → Prop where
  | placed (e : RuntimeError) : IsRuntimeError (.failed e)
  | unplaced (f : Fault) : IsRuntimeError (.malformed (.noPlace f))

/-- How the run of a program may stop that meets no other flaws than these. -/
inductive Stop.Ends (flaws : List Malformed) : Stop → Prop where
  | error {stop : Stop} (h : stop.IsRuntimeError) : Ends flaws stop
  | flawed {flaw : Malformed} (h : flaw ∈ flaws) : Ends flaws (.malformed flaw)
  | unfinished : Ends flaws .unfinished

/-- Inside a statement the frames may run out as well. -/
def Stop.Within (flaws : List Malformed) (stop : Stop) : Prop :=
  stop = .exhausted ∨ stop.Ends flaws

/-- A part of a tree has no other flaws than the tree. -/
theorem subset_of_flatMap_subset {f : Node → List Malformed} {ns : List Node}
    (h : ns.flatMap f ⊆ flaws) {n : Node} (hn : n ∈ ns) : f n ⊆ flaws :=
  fun _ hflaw => h (List.mem_flatMap.2 ⟨n, hn, hflaw⟩)

namespace Run

variable {α β : Type}

theorem within_faultAt (f : Fault) (place : Node) : (faultAt f place).Within flaws := by
  cases place with
  | token t => exact .inr (.error (.placed _))
  | _ => exact .inr (.error (.unplaced f))

/-- A step that meets no other flaws than these. -/
abbrev Safe (flaws : List Malformed) (P : α → Prop) (step : Run α) : Prop :=
  Confined (Value.Within flaws) (Stop.Within flaws) P step

namespace Safe

theorem token {n : Node} (h : n.tokenFlaws ⊆ flaws) : Safe flaws (fun _ => True) (token n) := by
  cases n with
  | token t => exact .pure trivial
  | _ => exact .throw (.inr (.flawed (h (by simp [Node.tokenFlaws]))))

/-- A place for a name gives a token. If that is no name, this is a flaw of the place. -/
theorem name {n : Node} (h : n.nameFlaws ⊆ flaws) :
    Safe flaws (fun t => t.name? = none → Stop.Within flaws (.malformed .noName)) (Run.token n) := by
  cases n with
  | token t => exact .pure fun hn => .inr (.flawed (h (by simp [Node.nameFlaws, hn])))
  | _ => exact .throw (.inr (.flawed (h (by simp [Node.nameFlaws]))))

theorem blockOf {n : Node} (h : n.bodyFlaws ⊆ flaws) :
    Safe flaws (fun ns => ns.flatMap Node.statementFlaws ⊆ flaws) (blockOf n) := by
  cases n with
  | block ns => exact .pure (by simpa [Node.bodyFlaws] using h)
  | _ => exact .throw (.inr (.flawed (h (by simp [Node.bodyFlaws]))))

theorem operated (t : Token) {r : Except Fault Value} (h : ∀ v, r = .ok v → v.closure? = none) :
    Safe flaws (Value.Within flaws) (operated t r) :=
  Confined.operated (fun v hv => Value.within_of_none (h v hv)) fun _ _ => .inr (.error (.placed _))

theorem failAt {P : α → Prop} (place : Node) (f : Fault) : Safe flaws P (failAt place f : Run α) :=
  .throw (within_faultAt f place)

theorem caughtAt {P : α → Prop} (place : Node) {step : Run α} (h : Safe flaws P step) :
    Safe flaws P (caughtAt place step) :=
  Confined.caughtAt h (within_faultAt .stackOverflow place) fun _ hstop _ => hstop

end Safe

/-- All six functions of the evaluator meet no other flaws than those of what they are given. -/
structure AllSafe (flaws : List Malformed) (s : Settings) (frames : Nat) : Prop where
  evaluate : ∀ n : Node, n.expressionFlaws ⊆ flaws →
    Safe flaws (Value.Within flaws) (evaluate s frames n)
  evaluateAll : ∀ ns : List Node, ns.flatMap Node.expressionFlaws ⊆ flaws →
    Safe flaws (fun vs => ∀ v ∈ vs, v.Within flaws) (evaluateAll s frames ns)
  apply : ∀ f vs paren, f.Within flaws → (∀ v ∈ vs, Value.Within flaws v) →
    Safe flaws (Value.Within flaws) (apply s frames f vs paren)
  invoke : ∀ closure vs, closure.flaws ⊆ flaws → (∀ v ∈ vs, Value.Within flaws v) →
    Safe flaws (Value.Within flaws) (invoke s frames closure vs)
  executeAll : ∀ ns : List Node, ns.flatMap Node.statementFlaws ⊆ flaws →
    Safe flaws (Completion.Holds (Value.Within flaws)) (executeAll s frames ns)
  execute : ∀ n : Node, n.statementFlaws ⊆ flaws →
    Safe flaws (Completion.Holds (Value.Within flaws)) (execute s frames n)

namespace AllSafe

theorem zero (flaws : List Malformed) (s : Settings) : AllSafe flaws s 0 where
  evaluate _ _ := .throw (.inl rfl)
  evaluateAll _ _ := .throw (.inl rfl)
  apply _ _ _ _ _ := .throw (.inl rfl)
  invoke _ _ _ _ := .throw (.inl rfl)
  executeAll _ _ := .throw (.inl rfl)
  execute _ _ := .throw (.inl rfl)

section Succ

variable {s : Settings} {frames : Nat} (ih : AllSafe flaws s frames)
include ih

theorem valueOf? {n : Node} (h : n.unlessMissing n.expressionFlaws ⊆ flaws) :
    Safe flaws (Value.Within flaws) (valueOf? s frames n) := by
  cases n with
  | missing => exact .pure (Value.within_of_none rfl)
  | _ => exact ih.evaluate _ h

theorem branchOf? {n : Node} (h : n.unlessMissing n.statementFlaws ⊆ flaws) :
    Safe flaws (Completion.Holds (Value.Within flaws)) (branchOf? s frames n) := by
  cases n with
  | missing => exact .pure trivial
  | _ => exact ih.execute _ h

theorem evaluate_succ {n : Node} (h : n.expressionFlaws ⊆ flaws) :
    Safe flaws (Value.Within flaws) (Run.evaluate s (frames + 1) n) := by
  cases n with
  | literal t => exact (Safe.token h).bind fun t _ => Safe.operated t fun _ => Value.closure?_literal
  | grouping value => exact ih.evaluate value h
  | «variable» name => exact (Safe.name h).bind fun t ht => .lookup ht (.inr (.error (.placed _)))
  | assign name value =>
    obtain ⟨hvalue, hname⟩ := List.append_subset.1 h
    refine (ih.evaluate value hvalue).bind fun v hv => (Safe.name hname).bind fun t ht => ?_
    exact (Confined.assign ht (.inr (.error (.placed _))) hv).bind fun _ _ => .pure hv
  | unary operator right =>
    obtain ⟨hright, ho⟩ := List.append_subset.1 h
    refine (ih.evaluate right hright).bind fun v _ => (Safe.token ho).bind fun t _ => ?_
    exact Safe.operated t fun _ => Value.closure?_unary
  | logical left operator right =>
    simp only [Node.expressionFlaws, List.append_subset] at h
    obtain ⟨⟨hleft, ho⟩, hright⟩ := h
    refine (ih.evaluate left hleft).bind fun v hv => (Safe.token ho).bind fun t _ => ?_
    exact .ite (fun _ => .pure hv) fun _ => ih.evaluate right hright
  | binary left operator right =>
    simp only [Node.expressionFlaws, List.append_subset] at h
    obtain ⟨⟨hleft, hright⟩, ho⟩ := h
    refine (ih.evaluate left hleft).bind fun a _ => (ih.evaluate right hright).bind fun b _ => ?_
    exact (Safe.token ho).bind fun t _ => Safe.operated t fun _ => Value.closure?_binary
  | call callee paren arguments =>
    simp only [Node.expressionFlaws, Node.allExpressionFlaws_eq, List.append_subset] at h
    obtain ⟨hcallee, harguments⟩ := h
    refine (ih.evaluate callee hcallee).bind fun f hf => ?_
    exact (ih.evaluateAll arguments harguments).bind fun vs hvs => ih.apply f vs paren hf hvs
  | _ => exact .throw (.inr (.flawed (h (by simp [Node.expressionFlaws]))))

theorem apply_succ {f : Value} {vs : List Value} (paren : Node) (hf : f.Within flaws)
    (hvs : ∀ v ∈ vs, v.Within flaws) :
    Safe flaws (Value.Within flaws) (Run.apply s (frames + 1) f vs paren) := by
  cases f with
  | function closure =>
    rw [apply_function]
    refine .ite (fun _ => Safe.failAt paren _) fun _ => (Confined.note s 3 _).bind fun _ _ => ?_
    exact Safe.caughtAt paren (ih.invoke closure vs (hf closure rfl) hvs)
  | builtin name =>
    rw [apply_builtin]
    refine .ite (fun _ => Safe.failAt paren _) fun _ => (Confined.note s 3 _).bind fun _ _ => ?_
    exact .readClock fun _ => Value.within_of_none rfl
  | _ => exact Safe.failAt paren _

theorem invoke_succ_succ {closure : Closure} {vs : List Value} (hc : closure.flaws ⊆ flaws)
    (hvs : ∀ v ∈ vs, v.Within flaws) :
    Safe flaws (Value.Within flaws) (Run.invoke s (frames + 2) closure vs) := by
  obtain ⟨hparams, hbody⟩ := List.append_subset.1 hc
  have hbound : Safe flaws (fun _ => True) (bindParams closure.params vs) := by
    refine .bindParams (fun p hp v hv => ?_) hvs
    exact (Safe.name (subset_of_flatMap_subset hparams hp)).bind fun t ht => .define ht hv
  refine (Confined.enclose closure.environment).bind fun inside _ => ?_
  refine (hbound.inEnvironment inside).bind fun _ _ => (Safe.blockOf hbody).bind fun ns hns => ?_
  refine ((ih.executeAll ns hns).inEnvironment inside).bind fun c hc => ?_
  cases c with
  | normal => exact .pure (Value.within_of_none rfl)
  | returned v => exact .pure hc

theorem execute_succ {n : Node} (h : n.statementFlaws ⊆ flaws) :
    Safe flaws (Completion.Holds (Value.Within flaws)) (Run.execute s (frames + 1) n) := by
  cases n with
  | expression value => exact (ih.evaluate value h).bind fun _ _ => .pure trivial
  | print value =>
    exact (ih.evaluate value h).bind fun v _ => (Confined.print _).bind fun _ _ => .pure trivial
  | var name initializer =>
    obtain ⟨hvalue, hname⟩ := List.append_subset.1 h
    rw [execute_var]
    refine (ih.valueOf? hvalue).bind fun v hv => (Safe.name hname).bind fun t ht => ?_
    refine (Confined.define ht hv).bind fun _ _ => ?_
    exact (Confined.note s 2 _).bind fun _ _ => .pure trivial
  | block statements =>
    exact .inScope (ih.executeAll statements (by simpa [Node.statementFlaws] using h))
  | ifElse condition thenBranch elseBranch =>
    simp only [Node.statementFlaws, List.append_subset] at h
    obtain ⟨⟨hc, hthen⟩, helse⟩ := h
    rw [execute_ifElse]
    refine (ih.evaluate condition hc).bind fun v _ => (Confined.note s 3 _).bind fun _ _ => ?_
    exact .ite (fun _ => ih.execute thenBranch hthen) fun _ => ih.branchOf? helse
  | whileDo condition body =>
    obtain ⟨hc, hbody⟩ := List.append_subset.1 h
    exact .loop (.inr .unfinished) (ih.evaluate condition hc) (ih.execute body hbody) s.turns
  | function name params body =>
    simp only [Node.statementFlaws, List.append_assoc, List.append_subset] at h
    obtain ⟨hname, hdeclaration⟩ := h
    refine Confined.get.bind fun m _ => (Safe.name hname).bind fun t ht => ?_
    have hv : Value.Within flaws (.function ⟨t, params, body, m.environment.capture⟩) := by
      rintro _ ⟨⟩
      exact List.append_subset.2 hdeclaration
    exact (Confined.define ht hv).bind fun _ _ => (Confined.note s 2 _).bind fun _ _ => .pure trivial
  | ret keyword value =>
    rw [execute_ret]
    exact (ih.valueOf? h).bind fun v hv => .pure hv
  | _ => exact .throw (.inr (.flawed (h (by simp [Node.statementFlaws]))))

end Succ

/-- Invoking a function takes one more frame than the other steps, and is looked at apart. -/
theorem next {s : Settings} {frames : Nat} (now : AllSafe flaws s frames)
    (hinvoke : ∀ closure vs, closure.flaws ⊆ flaws → (∀ v ∈ vs, Value.Within flaws v) →
      Safe flaws (Value.Within flaws) (Run.invoke s (frames + 1) closure vs)) :
    AllSafe flaws s (frames + 1) where
  evaluate _ := now.evaluate_succ
  evaluateAll _ h :=
    .collect (fun n hn => now.evaluate n (subset_of_flatMap_subset h hn)) #[] (by simp)
  apply _ _ := now.apply_succ
  invoke := hinvoke
  executeAll _ h := .sequence fun n hn => now.execute n (subset_of_flatMap_subset h hn)
  execute _ := now.execute_succ

/-- A call of the evaluator takes one frame or, to invoke a function, two; hence the two bundles. -/
theorem both (flaws : List Malformed) (s : Settings) (frames : Nat) :
    AllSafe flaws s frames ∧ AllSafe flaws s (frames + 1) := by
  induction frames with
  | zero => exact ⟨zero flaws s, (zero flaws s).next fun _ _ _ _ => .throw (.inl rfl)⟩
  | succ frames ih =>
    obtain ⟨before, now⟩ := ih
    exact ⟨now, now.next fun _ _ => before.invoke_succ_succ⟩

end AllSafe

theorem allSafe (flaws : List Malformed) (s : Settings) (frames : Nat) : AllSafe flaws s frames :=
  (AllSafe.both flaws s frames).1

theorem ends_topLevel (s : Settings) (frames : Nat) {n : Node} (h : n.statementFlaws ⊆ flaws) :
    Confined (Value.Within flaws) (Stop.Ends flaws) (Completion.Holds (Value.Within flaws))
      (topLevel s frames n) :=
  Confined.caughtAt ((allSafe flaws s frames).execute n h) (.error (.placed _))
    fun _ hstop hne => hstop.resolve_left hne

/-- The run of a tree ends well, with an error of the program or at one of its flaws, and leaves functions
without other flaws behind. -/
theorem ends_interpret (s : Settings) (frames : Nat) {p : Program} (h : p.flaws ⊆ flaws) :
    Confined (Value.Within flaws) (Stop.Ends flaws) (fun _ => True) (interpret s frames p) := by
  refine (Confined.note s 1 _).bind fun _ _ => ?_
  refine (Confined.sequence fun n hn => ?_).bind fun _ _ => Confined.note s 1 _
  exact ends_topLevel s frames (subset_of_flatMap_subset h hn)

end Run

/-- The functions on a machine have no other flaws than the programs that ran on it. -/
theorem Session.within {s : Settings} {frames : Nat} {past : History} {m : Machine}
    (h : Session s frames past m) (hpast : past.flaws ⊆ flaws) :
    m.store.Holds (Value.Within flaws) := by
  have hbuiltin : Value.Within flaws (.builtin Clock.builtinName) := Value.within_of_none rfl
  induction h with
  | fresh clock => exact .set .single hbuiltin _ _
  | noted _ _ ih => exact ih hpast
  | renewed _ ih => exact .set (ih hpast) hbuiltin _ _
  | taken _ ih => exact ih hpast
  | interpreted _ p ih =>
    obtain ⟨hp, hbefore⟩ := List.append_subset.1 hpast
    exact (Run.ends_interpret s frames hp _ (ih hbefore)).1

end Lox
