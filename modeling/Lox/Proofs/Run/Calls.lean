import Mathlib.Logic.Relation
import Lox.Proofs.Run.Soundness

/-!
The calls of a run: every evaluation, execution and function call that is ever begun, with the machine
it begins on. A call makes calls directly, with one frame less or two, and these are all that it does
besides steps of its own.
-/

set_option autoImplicit false

namespace Lox

/-- What the evaluator is asked to do. -/
inductive Task where
  | evaluate (n : Node)
  | evaluateAll (ns : List Node)
  | apply (f : Value) (vs : List Value) (paren : Node)
  | invoke (closure : Closure) (vs : List Value)
  | executeAll (ns : List Node)
  | execute (n : Node)

/-- The value that a statement returns, if it does. -/
def Completion.values : Completion → List Value
  | .normal => []
  | .returned v => [v]

/-- Does what is asked and gives all values that come of it. -/
def Task.run (s : Settings) (frames : Nat) : Task → Run (List Value)
  | .evaluate n => ([·]) <$> Run.evaluate s frames n
  | .evaluateAll ns => Run.evaluateAll s frames ns
  | .apply f vs paren => ([·]) <$> Run.apply s frames f vs paren
  | .invoke closure vs => ([·]) <$> Run.invoke s frames closure vs
  | .executeAll ns => Completion.values <$> Run.executeAll s frames ns
  | .execute n => Completion.values <$> Run.execute s frames n

structure Call where
  frames : Nat
  task : Task
  machine : Machine

namespace Call

/-- The values that are passed to a call. -/
def passed (c : Call) : List Value :=
  match c.task with
  | .apply f vs _ => f :: vs
  | .invoke closure vs => .function closure :: vs
  | _ => []

/-- The values that a call gives, and the machine that it leaves. -/
def ending (s : Settings) (c : Call) : Except Stop (List Value) × Machine :=
  c.task.run s c.frames c.machine

/-- A value is about in a call: bound in a scope when it begins or ends, passed to it, given by it or
printed. -/
inductive Has (s : Settings) (c : Call) (v : Value) : Prop where
  | before {id : ScopeId} {name : Name}
      (h : (c.machine.store.scope id).get? name = some v) : Has s c v
  | after {id : ScopeId} {name : Name}
      (h : ((c.ending s).2.store.scope id).get? name = some v) : Has s c v
  | passed (h : v ∈ c.passed) : Has s c v
  | given {vs : List Value} (h : (c.ending s).1 = .ok vs) (hv : v ∈ vs) : Has s c v
  | printed {frames : Nat} {n : Node} {m m' : Machine}
      (hc : c = ⟨frames + 1, .execute (.print n), m⟩)
      (h : Run.evaluate s frames n m = (.ok v, m')) : Has s c v

end Call

namespace Run

/-- A loop that comes round so many times, from a machine to another one. -/
inductive Turned (condition : Run Value) (body : Run Completion) :
    Nat → Machine → Machine → Prop where
  | none {m : Machine} : Turned condition body 0 m m
  | more {k : Nat} {m a b c : Machine} {v : Value} (h : Turned condition body k m a)
      (hc : condition a = (.ok v, b)) (hv : v.isTruthy = true) (hb : body b = (.ok .normal, c)) :
      Turned condition body (k + 1) m c

def callLine (closure : Closure) (vs : List Value) : String :=
  "call " ++ (Value.function closure).described ++ " with " ++ toString vs.length ++ " arguments"

def branchLine (v : Value) : String :=
  "if condition " ++ v.display ++ " -> " ++ (if v.isTruthy then "True" else "False")

/-- The calls that a call makes directly. Those after others begin where these end. -/
inductive Calls (s : Settings) : Call → Call → Prop where
  | grouping {frames : Nat} {m : Machine} {n : Node} :
      Calls s ⟨frames + 1, .evaluate (.grouping n), m⟩ ⟨frames, .evaluate n, m⟩
  | assigned {frames : Nat} {m : Machine} {name n : Node} :
      Calls s ⟨frames + 1, .evaluate (.assign name n), m⟩ ⟨frames, .evaluate n, m⟩
  | operand {frames : Nat} {m : Machine} {operator n : Node} :
      Calls s ⟨frames + 1, .evaluate (.unary operator n), m⟩ ⟨frames, .evaluate n, m⟩
  | logicalLeft {frames : Nat} {m : Machine} {l operator r : Node} :
      Calls s ⟨frames + 1, .evaluate (.logical l operator r), m⟩ ⟨frames, .evaluate l, m⟩
  | logicalRight {frames : Nat} {m m' : Machine} {l r : Node} {operator : Token} {v : Value}
      (hl : evaluate s frames l m = (.ok v, m')) (hv : v.isTruthy ≠ isOr operator) :
      Calls s ⟨frames + 1, .evaluate (.logical l (.token operator) r), m⟩ ⟨frames, .evaluate r, m'⟩
  | binaryLeft {frames : Nat} {m : Machine} {l operator r : Node} :
      Calls s ⟨frames + 1, .evaluate (.binary l operator r), m⟩ ⟨frames, .evaluate l, m⟩
  | binaryRight {frames : Nat} {m m' : Machine} {l operator r : Node} {v : Value}
      (hl : evaluate s frames l m = (.ok v, m')) :
      Calls s ⟨frames + 1, .evaluate (.binary l operator r), m⟩ ⟨frames, .evaluate r, m'⟩
  | callee {frames : Nat} {m : Machine} {n paren : Node} {ns : List Node} :
      Calls s ⟨frames + 1, .evaluate (.call n paren ns), m⟩ ⟨frames, .evaluate n, m⟩
  | arguments {frames : Nat} {m m' : Machine} {n paren : Node} {ns : List Node} {f : Value}
      (hf : evaluate s frames n m = (.ok f, m')) :
      Calls s ⟨frames + 1, .evaluate (.call n paren ns), m⟩ ⟨frames, .evaluateAll ns, m'⟩
  | apply {frames : Nat} {m a b : Machine} {n paren : Node} {ns : List Node} {f : Value}
      {vs : List Value} (hf : evaluate s frames n m = (.ok f, a))
      (hvs : evaluateAll s frames ns a = (.ok vs, b)) :
      Calls s ⟨frames + 1, .evaluate (.call n paren ns), m⟩ ⟨frames, .apply f vs paren, b⟩
  | argument {frames : Nat} {m m' : Machine} {before after : List Node} {n : Node}
      {vs : List Value} (h : collect (evaluate s frames) #[] before m = (.ok vs, m')) :
      Calls s ⟨frames + 1, .evaluateAll (before ++ n :: after), m⟩ ⟨frames, .evaluate n, m'⟩
  | invoke {frames : Nat} {m : Machine} {closure : Closure} {vs : List Value} {paren : Node}
      (h : vs.length = closure.params.length) :
      Calls s ⟨frames + 1, .apply (.function closure) vs paren, m⟩
        ⟨frames, .invoke closure vs, (note s 3 (callLine closure vs) m).2⟩
  | body {frames : Nat} {m m' : Machine} {closure : Closure} {vs : List Value} {inside : Environment}
      {ns : List Node} (hb : closure.body = .block ns)
      (hp : (do
        let inside ← enclose closure.environment
        inEnvironment inside (bindParams closure.params vs)
        return inside) m = (.ok inside, m')) :
      Calls s ⟨frames + 2, .invoke closure vs, m⟩
        ⟨frames, .executeAll ns, { m' with environment := inside }⟩
  | statement {frames : Nat} {m m' : Machine} {before after : List Node} {n : Node}
      (h : sequence (execute s frames) before m = (.ok .normal, m')) :
      Calls s ⟨frames + 1, .executeAll (before ++ n :: after), m⟩ ⟨frames, .execute n, m'⟩
  | discarded {frames : Nat} {m : Machine} {n : Node} :
      Calls s ⟨frames + 1, .execute (.expression n), m⟩ ⟨frames, .evaluate n, m⟩
  | printed {frames : Nat} {m : Machine} {n : Node} :
      Calls s ⟨frames + 1, .execute (.print n), m⟩ ⟨frames, .evaluate n, m⟩
  | initializer {frames : Nat} {m : Machine} {name n : Node} (hn : n ≠ .missing) :
      Calls s ⟨frames + 1, .execute (.var name n), m⟩ ⟨frames, .evaluate n, m⟩
  | block {frames : Nat} {m : Machine} {ns : List Node} :
      Calls s ⟨frames + 1, .execute (.block ns), m⟩ ⟨frames, .executeAll ns, m.pushScope⟩
  | ifCondition {frames : Nat} {m : Machine} {c n e : Node} :
      Calls s ⟨frames + 1, .execute (.ifElse c n e), m⟩ ⟨frames, .evaluate c, m⟩
  | thenBranch {frames : Nat} {m m' : Machine} {c n e : Node} {v : Value}
      (hc : evaluate s frames c m = (.ok v, m')) (hv : v.isTruthy = true) :
      Calls s ⟨frames + 1, .execute (.ifElse c n e), m⟩
        ⟨frames, .execute n, (note s 3 (branchLine v) m').2⟩
  | elseBranch {frames : Nat} {m m' : Machine} {c n e : Node} {v : Value}
      (hc : evaluate s frames c m = (.ok v, m')) (hv : v.isTruthy = false) (he : e ≠ .missing) :
      Calls s ⟨frames + 1, .execute (.ifElse c n e), m⟩
        ⟨frames, .execute e, (note s 3 (branchLine v) m').2⟩
  | condition {frames k : Nat} {m m' : Machine} {c n : Node} (hk : k < s.turns)
      (h : Turned (evaluate s frames c) (execute s frames n) k m m') :
      Calls s ⟨frames + 1, .execute (.whileDo c n), m⟩ ⟨frames, .evaluate c, m'⟩
  | turn {frames k : Nat} {m a b : Machine} {c n : Node} {v : Value} (hk : k < s.turns)
      (h : Turned (evaluate s frames c) (execute s frames n) k m a)
      (hc : evaluate s frames c a = (.ok v, b)) (hv : v.isTruthy = true) :
      Calls s ⟨frames + 1, .execute (.whileDo c n), m⟩ ⟨frames, .execute n, b⟩
  | returned {frames : Nat} {m : Machine} {keyword n : Node} (hn : n ≠ .missing) :
      Calls s ⟨frames + 1, .execute (.ret keyword n), m⟩ ⟨frames, .evaluate n, m⟩

end Run

variable {T : Token → Prop}

/-- What is asked is about trees of programs and proper values. -/
def Task.IsProper (T : Token → Prop) : Task → Prop
  | .evaluate n => n.IsExpression T
  | .evaluateAll ns => ∀ n ∈ ns, n.IsExpression T
  | .apply f vs paren => f.IsProper T ∧ (∀ v ∈ vs, v.IsProper T) ∧ ∃ t, paren = .token t ∧ T t
  | .invoke closure vs => closure.IsProper T ∧ ∀ v ∈ vs, v.IsProper T
  | .executeAll ns => ∀ n ∈ ns, n.IsStatement T
  | .execute n => n.IsStatement T

structure Call.IsProper (T : Token → Prop) (c : Call) : Prop where
  store : c.machine.store.IsProper T
  task : c.task.IsProper T

namespace Run

theorem Turned.isProper {condition : Run Value} {body : Run Completion} {k : Nat} {m m' : Machine}
    (hc : Sound T (Value.IsProper T) condition) (hb : Sound T (Completion.IsProper T) body)
    (h : Turned condition body k m m') (hm : m.store.IsProper T) : m'.store.IsProper T := by
  induction h with
  | none => exact hm
  | more _ hcondition _ hbody ih => exact (hb.ok (hc.ok (ih hm) hcondition).2 hbody).2

theorem isProper_note {m : Machine} (hm : m.store.IsProper T) (s : Settings) (level : Nat)
    (line : String) : (note s level line m).2.store.IsProper T :=
  (Meets.note (E := fun _ => True) s level line m hm).1

theorem Calls.isProper (hT : ∀ t, T t → t.IsScanned) {s : Settings} {c c' : Call}
    (h : Calls s c c') (hc : c.IsProper T) : c'.IsProper T := by
  obtain ⟨hm, ht⟩ := hc
  cases h with
  | grouping => cases ht with | grouping h => exact ⟨hm, h⟩
  | assigned => cases ht with | assign _ _ h => exact ⟨hm, h⟩
  | operand => cases ht with | unary _ _ h => exact ⟨hm, h⟩
  | logicalLeft => cases ht with | logical _ _ h _ => exact ⟨hm, h⟩
  | logicalRight hl _ =>
    cases ht with
    | logical _ _ h h' => exact ⟨(((allMeet hT s _).evaluate _ h).ok hm hl).2, h'⟩
  | binaryLeft => cases ht with | binary _ _ h _ => exact ⟨hm, h⟩
  | binaryRight hl =>
    cases ht with
    | binary _ _ h h' => exact ⟨(((allMeet hT s _).evaluate _ h).ok hm hl).2, h'⟩
  | callee => cases ht with | call _ _ h _ => exact ⟨hm, h⟩
  | arguments hf =>
    cases ht with
    | call _ _ h hs => exact ⟨(((allMeet hT s _).evaluate _ h).ok hm hf).2, hs⟩
  | apply hf hvs =>
    cases ht with
    | call ht _ h hs =>
      obtain ⟨hf, ha⟩ := ((allMeet hT s _).evaluate _ h).ok hm hf
      obtain ⟨hvs, hb⟩ := ((allMeet hT s _).evaluateAll _ hs).ok ha hvs
      exact ⟨hb, hf, hvs, _, rfl, ht⟩
  | @argument frames _ _ before _ _ _ h =>
    obtain ⟨hbefore, hrest⟩ := List.forall_mem_append.1 ht
    have hall := (allMeet hT s (frames + 1)).evaluateAll before hbefore
    exact ⟨(hall.ok hm h).2, (List.forall_mem_cons.1 hrest).1⟩
  | invoke => exact ⟨isProper_note hm s 3 _, ht.1, ht.2.1⟩
  | @body frames _ _ closure vs inside ns hb hp =>
    obtain ⟨hc, hvs⟩ := ht
    obtain ⟨ms, hms, hns⟩ := hc.body
    obtain rfl : ns = ms := Node.block.inj (hb.symm.trans hms)
    have hbind : Sound T (fun _ => True) (do
        let inside ← enclose closure.environment
        inEnvironment inside (bindParams closure.params vs)
        return inside) :=
      (Meets.enclose closure.environment).bind fun inside _ =>
        ((Meets.bindParams hT hc.params hvs).inEnvironment inside).bind fun _ _ => .pure trivial
    exact ⟨(hbind.ok hm hp).2, hns⟩
  | @statement frames _ _ before _ _ h =>
    obtain ⟨hbefore, hrest⟩ := List.forall_mem_append.1 ht
    have hall := (allMeet hT s (frames + 1)).executeAll before hbefore
    exact ⟨(hall.ok hm h).2, (List.forall_mem_cons.1 hrest).1⟩
  | discarded => cases ht with | expression h => exact ⟨hm, h⟩
  | printed => cases ht with | print h => exact ⟨hm, h⟩
  | initializer hn =>
    cases ht with
    | bareVar => exact absurd rfl hn
    | var _ h => exact ⟨hm, h⟩
  | block => cases ht with | block hs => exact ⟨Store.isProper_addScope hm, hs⟩
  | ifCondition =>
    cases ht with
    | ifThen h _ => exact ⟨hm, h⟩
    | ifElse h _ _ => exact ⟨hm, h⟩
  | thenBranch hc _ =>
    cases ht with
    | ifThen h h' => exact ⟨isProper_note (((allMeet hT s _).evaluate _ h).ok hm hc).2 s 3 _, h'⟩
    | ifElse h h' _ => exact ⟨isProper_note (((allMeet hT s _).evaluate _ h).ok hm hc).2 s 3 _, h'⟩
  | elseBranch hc _ he =>
    cases ht with
    | ifThen => exact absurd rfl he
    | ifElse h _ h' => exact ⟨isProper_note (((allMeet hT s _).evaluate _ h).ok hm hc).2 s 3 _, h'⟩
  | condition _ h =>
    cases ht with
    | whileDo hc hn =>
      exact ⟨h.isProper ((allMeet hT s _).evaluate _ hc) ((allMeet hT s _).execute _ hn) hm, hc⟩
  | turn _ h hc _ =>
    cases ht with
    | whileDo hcond hn =>
      have ha := h.isProper ((allMeet hT s _).evaluate _ hcond) ((allMeet hT s _).execute _ hn) hm
      exact ⟨(((allMeet hT s _).evaluate _ hcond).ok ha hc).2, hn⟩
  | returned hn =>
    cases ht with
    | bareReturn => exact absurd rfl hn
    | «return» _ _ h => exact ⟨hm, h⟩

theorem isProper_of_calls (hT : ∀ t, T t → t.IsScanned) {s : Settings} {c c' : Call}
    (h : Relation.ReflTransGen (Calls s) c c') (hc : c.IsProper T) : c'.IsProper T := by
  induction h with
  | refl => exact hc
  | tail _ h ih => exact h.isProper hT ih

/-- Proper values or none come of what is asked about proper ones. -/
theorem sound_run (hT : ∀ t, T t → t.IsScanned) (s : Settings) (frames : Nat) {task : Task}
    (h : task.IsProper T) :
    Sound T (fun vs => ∀ v ∈ vs, Value.IsProper T v) (task.run s frames) := by
  have hone : ∀ v : Value, v.IsProper T → ∀ w ∈ [v], w.IsProper T := by simp
  have hvalues : ∀ c : Completion, c.IsProper T → ∀ v ∈ c.values, v.IsProper T := by
    rintro (_ | v) hc
    · simp [Completion.values]
    · exact hone v hc
  cases task with
  | evaluate n => exact ((allMeet hT s frames).evaluate n h).map hone
  | evaluateAll ns => exact (allMeet hT s frames).evaluateAll ns h
  | apply f vs paren =>
    obtain ⟨hf, hvs, t, rfl, ht⟩ := h
    exact ((allMeet hT s frames).apply f vs t hf hvs ht).map hone
  | invoke closure vs => exact ((allMeet hT s frames).invoke closure vs h.1 h.2).map hone
  | executeAll ns => exact ((allMeet hT s frames).executeAll ns h).map hvalues
  | execute n => exact ((allMeet hT s frames).execute n h).map hvalues

/-- All values about in a proper call are proper. -/
theorem isProper_has (hT : ∀ t, T t → t.IsScanned) {s : Settings} {c : Call} (hc : c.IsProper T)
    {v : Value} (hv : c.Has s v) : v.IsProper T := by
  obtain ⟨hstore, hgiven⟩ := sound_run hT s c.frames hc.task c.machine hc.store
  cases hv with
  | before h => exact hc.store _ _ _ h
  | after h => exact hstore _ _ _ h
  | passed h =>
    obtain ⟨frames, task, m⟩ := c
    have ht := hc.task
    cases task with
    | apply f vs paren =>
      rcases List.mem_cons.1 h with rfl | h
      · exact ht.1
      · exact ht.2.1 v h
    | invoke closure vs =>
      rcases List.mem_cons.1 h with rfl | h
      · exact ht.1
      · exact ht.2 v h
    | _ => exact absurd h List.not_mem_nil
  | given h hv =>
    rw [show (c.task.run s c.frames c.machine).1 = _ from h] at hgiven
    exact hgiven v hv
  | printed hprint h =>
    subst hprint
    obtain ⟨hm, ht⟩ := (Calls.printed : Calls s _ _).isProper hT hc
    exact (((allMeet hT s _).evaluate _ ht).ok hm h).1

end Run

end Lox
