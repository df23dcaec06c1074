import Lox.Proofs.Run.Confined
import Lox.Proofs.Scan.Tokens

/-!
Soundness of the evaluator on the trees of programs. Main statement: from a store of proper values, it
gives proper values, keeps the store one of them, and stops for documented faults only, if not for want
of frames or turns.
-/

set_option autoImplicit false

namespace Lox

/-- The faults that a program can have. The others are for trees that no source text has. -/
inductive Fault.IsDocumented : Fault → Prop where
  | undefinedVariable (name : String) : IsDocumented (.undefinedVariable (.text name))
  | operandNoNumber : IsDocumented .operandNoNumber
  | operandsNoNumbers : IsDocumented .operandsNoNumbers
  | operandsNotAlike : IsDocumented .operandsNotAlike
  | notCallable : IsDocumented .notCallable
  | wrongCount {expected given : Nat} (h : given ≠ expected) :
      IsDocumented (.wrongCount expected given)
  | stackOverflow : IsDocumented .stackOverflow

variable {T : Token → Prop}

/-- A function that was declared in a program over tokens of a sort. -/
structure Closure.IsProper (T : Token → Prop) (c : Closure) : Prop where
  name : T c.name
  params : ∀ p ∈ c.params, p.IsName T
  body : ∃ ns, c.body = .block ns ∧ ∀ n ∈ ns, n.IsStatement T

/-- Nil, a boolean, a number, a text, a builtin function or a function of the program. -/
def Value.IsProper (T : Token → Prop) : Value → Prop
  | .function c => c.IsProper T
  | .data _ => False
  | _ => True

def Completion.IsProper (T : Token → Prop) : Completion → Prop
  | .normal => True
  | .returned v => v.IsProper T

/-- Only proper values are bound. -/
def Store.IsProper (T : Token → Prop) (store : Store) : Prop :=
  ∀ id name v, (store.scope id).get? name = some v → v.IsProper T

theorem Store.isProper_set {store : Store} (h : store.IsProper T) {v : Value} (hv : v.IsProper T)
    (id : ScopeId) (name : Name) : (store.set id name v).IsProper T :=
  Store.Holds.set h hv id name

theorem Store.isProper_addScope {store : Store} (h : store.IsProper T) :
    store.addScope.IsProper T :=
  Store.Holds.addScope h

theorem Token.IsScanned.name?_ne_none {t : Token} (ht : t.IsScanned) : t.name? ≠ none := by
  obtain ⟨s, hs⟩ := ht.lexeme
  rw [Token.name?, hs]
  nofun

/-- How a run over tokens of a sort may stop: with a documented fault at one of them, or for want of
frames or turns. -/
inductive Stop.IsExpected (T : Token → Prop) : Stop → Prop where
  | failed {f : Fault} {t : Token} (hf : f.IsDocumented) (ht : T t) :
      IsExpected T (.failed ⟨t.line, f⟩)
  | exhausted : IsExpected T .exhausted
  | unfinished : IsExpected T .unfinished

/-- What an operator may give: a proper value or a documented fault. -/
def Value.Fares (T : Token → Prop) : Except Fault Value → Prop
  | .ok v => v.IsProper T
  | .error f => f.IsDocumented

namespace Value

theorem fares_literal {t : Token} (ht : t.IsScanned) (hk : t.kind ∈ Grammar.literals) :
    Fares T (literal t) := by
  simp only [Grammar.literals, List.mem_cons, List.not_mem_nil, or_false] at hk
  rcases hk with hk | hk | hk | hk | hk
  · obtain ⟨x, hx⟩ := ht.number hk
    simp only [literal, hk, hx]
    trivial
  · obtain ⟨s, hs⟩ := ht.text (.inl hk)
    simp only [literal, hk, hs]
    trivial
  all_goals
    simp only [literal, hk]
    trivial

theorem fares_unary {t : Token} (hk : t.kind = .bang ∨ t.kind = .minus) (v : Value) :
    Fares T (unary t v) := by
  rcases hk with hk | hk
  · simp only [unary, hk]
    trivial
  · cases v with
    | number x => simp only [unary, hk]; trivial
    | _ => simp only [unary, hk]; exact .operandNoNumber

theorem fares_arithmetic {t : Token} (hk : t.kind ∈ Node.binaryOperators)
    (he : t.kind ≠ .equalEqual) (hb : t.kind ≠ .bangEqual) (hp : t.kind ≠ .plus) (x y : Float) :
    Fares T (arithmetic t x y) := by
  simp only [Node.binaryOperators, List.mem_cons, List.not_mem_nil, or_false] at hk
  rcases hk with hk | hk | hk | hk | hk | hk | hk | hk | hk | hk <;>
    first
    | contradiction
    | simp only [arithmetic, hk]; trivial

theorem fares_binary {t : Token} (hk : t.kind ∈ Node.binaryOperators) (a b : Value) :
    Fares T (binary t a b) := by
  unfold binary
  split
  next => trivial
  next => trivial
  next =>
    split
    · trivial
    · trivial
    · exact .operandsNotAlike
  next he hb hp =>
    split
    · exact fares_arithmetic hk he hb hp _ _
    · exact .operandsNoNumbers

end Value

namespace Run

variable {α β : Type}

/-- A step that from a proper store gives results of one sort or stops in ways of another, and in
either case leaves a proper store. -/
def Meets (T : Token → Prop) (E : Stop → Prop) (P : α → Prop) (step : Run α) : Prop :=
  ∀ m, m.store.IsProper T → (step m).2.store.IsProper T ∧
    match (step m).1 with
    | .ok a => P a
    | .error stop => E stop

/-- The stops are the expected ones. -/
abbrev Sound (T : Token → Prop) (P : α → Prop) (step : Run α) : Prop :=
  Meets T (Stop.IsExpected T) P step

namespace Meets

variable {E : Stop → Prop}

theorem pure {P : α → Prop} {a : α} (h : P a) : Meets T E P (pure a : Run α) :=
  Confined.pure (E := E) h

theorem throw {P : α → Prop} {stop : Stop} (h : E stop) : Meets T E P (throw stop : Run α) :=
  Confined.throw (P := P) h

theorem ok {P : α → Prop} {step : Run α} (h : Meets T E P step) {m m' : Machine} {a : α}
    (hm : m.store.IsProper T) (hs : step m = (.ok a, m')) : P a ∧ m'.store.IsProper T :=
  Confined.ok h hm hs

theorem bind {P : α → Prop} {Q : β → Prop} {x : Run α} {f : α → Run β} (hx : Meets T E P x)
    (hf : ∀ a, P a → Meets T E Q (f a)) : Meets T E Q (x >>= f) :=
  Confined.bind hx hf

theorem map {P : α → Prop} {Q : β → Prop} {x : Run α} {f : α → β} (hx : Meets T E P x)
    (h : ∀ a, P a → Q (f a)) : Meets T E Q (f <$> x) := by
  rw [map_eq_pure_bind]
  exact hx.bind fun a ha => pure (h a ha)

theorem ite {P : α → Prop} {c : Prop} [Decidable c] {x y : Run α} (hx : c → Meets T E P x)
    (hy : ¬ c → Meets T E P y) : Meets T E P (if c then x else y) :=
  Confined.ite hx hy

theorem note (s : Settings) (level : Nat) (line : String) :
    Meets T E (fun _ => True) (note s level line) :=
  Confined.note s level line

theorem print (line : String) : Meets T E (fun _ => True) (print line) :=
  Confined.print (E := E) line

theorem define {t : Token} (ht : t.IsScanned) {v : Value} (hv : v.IsProper T) :
    Sound T (fun _ => True) (define t v) :=
  Confined.define (fun hn => absurd hn ht.name?_ne_none) hv

theorem undefined {t : Token} (ht : T t) (hs : t.IsScanned) :
    Stop.IsExpected T (.failed ⟨t.line, .undefinedVariable t.lexeme⟩) := by
  obtain ⟨s, hs⟩ := hs.lexeme
  rw [hs]
  exact .failed (.undefinedVariable s) ht

theorem lookup {t : Token} (ht : T t) (hs : t.IsScanned) :
    Sound T (Value.IsProper T) (lookup t) :=
  Confined.lookup (fun hn => absurd hn hs.name?_ne_none) (undefined ht hs)

theorem assign {t : Token} (ht : T t) (hs : t.IsScanned) {v : Value} (hv : v.IsProper T) :
    Sound T (fun _ => True) (assign t v) :=
  Confined.assign (fun hn => absurd hn hs.name?_ne_none) (undefined ht hs) hv

theorem operated {t : Token} (ht : T t) {r : Except Fault Value} (hr : Value.Fares T r) :
    Sound T (Value.IsProper T) (operated t r) := by
  refine Confined.operated (fun v hv => ?_) fun f hf => ?_
  · rw [hv] at hr
    exact hr
  · rw [hf] at hr
    exact .failed hr ht

theorem enclose (e : Environment) : Meets T E (fun _ => True) (enclose e) :=
  Confined.enclose (E := E) e

theorem readClock : Sound T (Value.IsProper T) readClock :=
  Confined.readClock (E := Stop.IsExpected T) fun _ => trivial

theorem inScope {P : α → Prop} {step : Run α} (h : Meets T E P step) : Meets T E P (inScope step) :=
  Confined.inScope h

theorem inEnvironment {P : α → Prop} {step : Run α} (h : Meets T E P step) (e : Environment) :
    Meets T E P (inEnvironment e step) :=
  Confined.inEnvironment h e

theorem caughtAt {P : α → Prop} {t : Token} (ht : T t) {step : Run α} (h : Sound T P step) :
    Sound T P (caughtAt (.token t) step) :=
  Confined.caughtAt h (.failed .stackOverflow ht) fun _ hstop _ => hstop

theorem collect {value : Node → Run Value} {ns : List Node}
    (h : ∀ n ∈ ns, Meets T E (Value.IsProper T) (value n)) (done : Array Value)
    (hd : ∀ v ∈ done, v.IsProper T) :
    Meets T E (fun vs => ∀ v ∈ vs, v.IsProper T) (collect value done ns) :=
  Confined.collect h done hd

theorem sequence {statement : Node → Run Completion} {ns : List Node}
    (h : ∀ n ∈ ns, Meets T E (Completion.IsProper T) (statement n)) :
    Meets T E (Completion.IsProper T) (sequence statement ns) :=
  Confined.sequence h

theorem loop {condition : Run Value} {body : Run Completion}
    (hc : Sound T (Value.IsProper T) condition) (hb : Sound T (Completion.IsProper T) body)
    (turns : Nat) : Sound T (Completion.IsProper T) (loop condition body turns) :=
  Confined.loop .unfinished hc hb turns

theorem bindParams (hT : ∀ t, T t → t.IsScanned) {params : List Node}
    (hp : ∀ p ∈ params, p.IsName T) {vs : List Value} (hv : ∀ v ∈ vs, v.IsProper T) :
    Sound T (fun _ => True) (bindParams params vs) := by
  refine Confined.bindParams (fun p hp' v hv' => ?_) hv
  obtain ⟨ht, _⟩ := hp p hp'
  exact define (hT _ ht) hv'

end Meets

/-- All six functions of the evaluator are sound on the trees of programs, given so many frames. -/
structure AllMeet (T : Token → Prop) (s : Settings) (frames : Nat) : Prop where
  evaluate : ∀ n, n.IsExpression T → Sound T (Value.IsProper T) (evaluate s frames n)
  evaluateAll : ∀ ns : List Node, (∀ n ∈ ns, n.IsExpression T) →
    Sound T (fun vs => ∀ v ∈ vs, v.IsProper T) (evaluateAll s frames ns)
  apply : ∀ f vs t, f.IsProper T → (∀ v ∈ vs, Value.IsProper T v) → T t →
    Sound T (Value.IsProper T) (apply s frames f vs (.token t))
  invoke : ∀ closure vs, closure.IsProper T → (∀ v ∈ vs, Value.IsProper T v) →
    Sound T (Value.IsProper T) (invoke s frames closure vs)
  executeAll : ∀ ns : List Node, (∀ n ∈ ns, n.IsStatement T) →
    Sound T (Completion.IsProper T) (executeAll s frames ns)
  execute : ∀ n, n.IsStatement T → Sound T (Completion.IsProper T) (execute s frames n)

namespace AllMeet

theorem zero (T : Token → Prop) (s : Settings) : AllMeet T s 0 where
  evaluate _ _ := .throw .exhausted
  evaluateAll _ _ := .throw .exhausted
  apply _ _ _ _ _ _ := .throw .exhausted
  invoke _ _ _ _ := .throw .exhausted
  executeAll _ _ := .throw .exhausted
  execute _ _ := .throw .exhausted

section Succ

variable {s : Settings} {frames : Nat} (ih : AllMeet T s frames)
include ih

theorem valueOf? {n : Node} (hn : n = .missing ∨ n.IsExpression T) :
    Sound T (Value.IsProper T) (valueOf? s frames n) := by
  rcases hn with rfl | hn
  · exact .pure trivial
  · cases n with
    | missing => exact .pure trivial
    | _ => exact ih.evaluate _ hn

theorem branchOf? {n : Node} (hn : n = .missing ∨ n.IsStatement T) :
    Sound T (Completion.IsProper T) (branchOf? s frames n) := by
  rcases hn with rfl | hn
  · exact .pure trivial
  · cases n with
    | missing => exact .pure trivial
    | _ => exact ih.execute _ hn

theorem apply_succ {f : Value} {vs : List Value} {t : Token} (hf : f.IsProper T)
    (hvs : ∀ v ∈ vs, v.IsProper T) (ht : T t) :
    Sound T (Value.IsProper T) (Run.apply s (frames + 1) f vs (.token t)) := by
  cases f with
  | function closure =>
    rw [apply_function]
    refine .ite (fun h => .throw (.failed (.wrongCount h) ht)) fun _ => ?_
    exact (Meets.note s 3 _).bind fun _ _ => .caughtAt ht (ih.invoke closure vs hf hvs)
  | builtin name =>
    rw [apply_builtin]
    refine .ite (fun h => .throw (.failed (.wrongCount h) ht)) fun _ => ?_
    exact (Meets.note s 3 _).bind fun _ _ => .readClock
  | _ => exact .throw (.failed .notCallable ht)

theorem execute_ifElse_succ {c n e : Node} (hc : c.IsExpression T) (hn : n.IsStatement T)
    (he : e = .missing ∨ e.IsStatement T) :
    Sound T (Completion.IsProper T) (Run.execute s (frames + 1) (.ifElse c n e)) := by
  rw [execute_ifElse]
  refine (ih.evaluate _ hc).bind fun v _ => (Meets.note s 3 _).bind fun _ _ => ?_
  exact .ite (fun _ => ih.execute _ hn) fun _ => ih.branchOf? he

theorem execute_ret_succ {keyword n : Node} (hn : n = .missing ∨ n.IsExpression T) :
    Sound T (Completion.IsProper T) (Run.execute s (frames + 1) (.ret keyword n)) := by
  rw [execute_ret]
  exact (ih.valueOf? hn).bind fun v hv => .pure hv

variable (hT : ∀ t, T t → t.IsScanned)
include hT

theorem evaluate_succ {n : Node} (hn : n.IsExpression T) :
    Sound T (Value.IsProper T) (Run.evaluate s (frames + 1) n) := by
  cases hn with
  | literal ht hk => exact .operated ht (Value.fares_literal (hT _ ht) hk)
  | grouping h => exact ih.evaluate _ h
  | «variable» ht _ => exact .lookup ht (hT _ ht)
  | assign ht _ h =>
    exact (ih.evaluate _ h).bind fun v hv => (Meets.assign ht (hT _ ht) hv).bind fun _ _ => .pure hv
  | unary ht hk h =>
    exact (ih.evaluate _ h).bind fun v _ => .operated ht (Value.fares_unary hk v)
  | logical ht _ hl hr =>
    exact (ih.evaluate _ hl).bind fun v hv => .ite (fun _ => .pure hv) fun _ => ih.evaluate _ hr
  | binary ht hk hl hr =>
    refine (ih.evaluate _ hl).bind fun a _ => (ih.evaluate _ hr).bind fun b _ => ?_
    exact .operated ht (Value.fares_binary hk a b)
  | call ht _ h hs =>
    refine (ih.evaluate _ h).bind fun f hf => (ih.evaluateAll _ hs).bind fun vs hvs => ?_
    exact ih.apply f vs _ hf hvs ht

theorem invoke_succ_succ {closure : Closure} {vs : List Value} (hc : closure.IsProper T)
    (hvs : ∀ v ∈ vs, v.IsProper T) :
    Sound T (Value.IsProper T) (Run.invoke s (frames + 2) closure vs) := by
  obtain ⟨ns, hbody, hns⟩ := hc.body
  refine (Meets.enclose closure.environment).bind fun inside _ => ?_
  refine ((Meets.bindParams hT hc.params hvs).inEnvironment inside).bind fun _ _ => ?_
  rw [hbody]
  refine Meets.bind (P := fun ms => ms = ns) (.pure rfl) fun ms hms => ?_
  rw [hms]
  refine ((ih.executeAll ns hns).inEnvironment inside).bind fun c hc => ?_
  cases c with
  | normal => exact .pure trivial
  | returned v => exact .pure hc

theorem execute_var_succ {name n : Node} (hname : name.IsName T)
    (hn : n = .missing ∨ n.IsExpression T) :
    Sound T (Completion.IsProper T) (Run.execute s (frames + 1) (.var name n)) := by
  obtain ⟨ht, _⟩ := hname
  rw [execute_var]
  refine (ih.valueOf? hn).bind fun v hv => (Meets.define (hT _ ht) hv).bind fun _ _ => ?_
  exact (Meets.note s 2 _).bind fun _ _ => .pure trivial

theorem execute_succ {n : Node} (hn : n.IsStatement T) :
    Sound T (Completion.IsProper T) (Run.execute s (frames + 1) n) := by
  cases hn with
  | expression h => exact (ih.evaluate _ h).bind fun _ _ => .pure trivial
  | print h =>
    exact (ih.evaluate _ h).bind fun v _ => (Meets.print _).bind fun _ _ => .pure trivial
  | bareVar hn => exact ih.execute_var_succ hT hn (.inl rfl)
  | var hn h => exact ih.execute_var_succ hT hn (.inr h)
  | block hs => exact .inScope (ih.executeAll _ hs)
  | ifThen hc h => exact ih.execute_ifElse_succ hc h (.inl rfl)
  | ifElse hc h he => exact ih.execute_ifElse_succ hc h (.inr he)
  | whileDo hc h => exact .loop (ih.evaluate _ hc) (ih.execute _ h) s.turns
  | function hn hp hb =>
    obtain ⟨ht, _⟩ := hn
    refine Meets.bind (P := fun _ => True) (fun m hm => ⟨hm, trivial⟩) fun m _ => ?_
    have hc : Closure.IsProper T ⟨_, _, _, m.environment.capture⟩ := ⟨ht, hp, _, rfl, hb⟩
    refine (Meets.define (v := .function _) (hT _ ht) hc).bind fun _ _ => ?_
    exact (Meets.note s 2 _).bind fun _ _ => .pure trivial
  | bareReturn _ _ => exact ih.execute_ret_succ (.inl rfl)
  | «return» _ _ h => exact ih.execute_ret_succ (.inr h)

end Succ

/-- Invoking a function takes one more frame than the other steps, and is looked at apart. -/
theorem next (hT : ∀ t, T t → t.IsScanned) {s : Settings} {frames : Nat} (now : AllMeet T s frames)
    (hinvoke : ∀ closure vs, closure.IsProper T → (∀ v ∈ vs, Value.IsProper T v) →
      Sound T (Value.IsProper T) (Run.invoke s (frames + 1) closure vs)) :
    AllMeet T s (frames + 1) where
  evaluate _ hn := now.evaluate_succ hT hn
  evaluateAll _ hns := .collect (fun n hn => now.evaluate n (hns n hn)) #[] (by simp)
  apply _ _ _ := now.apply_succ
  invoke := hinvoke
  executeAll _ hns := .sequence fun n hn => now.execute n (hns n hn)
  execute _ hn := now.execute_succ hT hn

/-- A call of the evaluator takes one frame or, to invoke a function, two; hence the two bundles. -/
theorem both (hT : ∀ t, T t → t.IsScanned) (s : Settings) (frames : Nat) :
    AllMeet T s frames ∧ AllMeet T s (frames + 1) := by
  induction frames with
  | zero => exact ⟨zero T s, (zero T s).next hT fun _ _ _ _ => .throw .exhausted⟩
  | succ frames ih =>
    obtain ⟨before, now⟩ := ih
    exact ⟨now, now.next hT fun _ _ => before.invoke_succ_succ hT⟩

end AllMeet

theorem allMeet (hT : ∀ t, T t → t.IsScanned) (s : Settings) (frames : Nat) : AllMeet T s frames :=
  (AllMeet.both hT s frames).1

end Run

end Lox
