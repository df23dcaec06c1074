import Mathlib.Data.List.Nodup
import Lox.Proofs.Run.Origins
import Lox.Proofs.Run.Sessions

/-!
The environments of a session. Main statement: in every state of a session, between runs and inside them,
the environments that are alive are branches of one tree of scopes, and the environment of a function is
the one that was current when the function was made.
-/

set_option autoImplicit false

namespace Lox

/-- The scopes of an environment, the global one first. -/
def Environment.stack (e : Environment) : List ScopeId := e.scopes.reverse

/-- The environments that are alive: the current one, those that the calls underway have kept, and those
of the functions that are bound in any scope. -/
inductive Environment.Alive (m : Machine) (saved : List Environment) : Environment → Prop where
  | current : Alive m saved m.environment
  | saved {e : Environment} (h : e ∈ saved) : Alive m saved e
  | closure {id : ScopeId} {name : Name} {f : Closure}
      (h : (name, .function f) ∈ (m.store.scope id).bindings) : Alive m saved f.environment

namespace ScopeTree

variable {F : ScopeTree} {e e' : Environment}

/-- Below a scope in a branch are the scopes around it. -/
theorem Has.stack (h : F.Has e) {i : Nat} {id : ScopeId} (hi : e.stack[i]? = some id) :
    F.outer[id]? = some (e.stack.take i).reverse := by
  obtain ⟨hlt, hget⟩ := List.getElem?_eq_some_iff.1 hi
  have hstack : e.stack = e.stack.take i ++ id :: e.stack.drop (i + 1) := by
    rw [← hget, ← List.drop_eq_getElem_cons hlt, List.take_append_drop]
  have hscopes : e.scopes = (e.stack.drop (i + 1)).reverse ++ id :: (e.stack.take i).reverse := by
    have hreverse := congrArg List.reverse hstack
    simpa [Environment.stack] using hreverse
  exact h.outer hscopes

/-- Two branches have a scope at the same place, if they have it, and the same scopes below it. -/
theorem Has.meet (h : F.Has e) (h' : F.Has e') {i j : Nat} {id : ScopeId}
    (hi : e.stack[i]? = some id) (hj : e'.stack[j]? = some id) :
    i = j ∧ e.stack.take i = e'.stack.take j := by
  have houter := (h.stack hi).symm.trans (h'.stack hj)
  have htake : e.stack.take i = e'.stack.take j := List.reverse_injective (Option.some.inj houter)
  have hlength := congrArg List.length htake
  have hlt := (List.getElem?_eq_some_iff.1 hi).1
  have hlt' := (List.getElem?_eq_some_iff.1 hj).1
  rw [List.length_take_of_le (Nat.le_of_lt hlt), List.length_take_of_le (Nat.le_of_lt hlt')]
    at hlength
  exact ⟨hlength, htake⟩

theorem Has.stack_nodup (h : F.Has e) : e.stack.Nodup :=
  List.nodup_reverse.2 (h.pairwise.1.imp fun h => Nat.ne_of_gt h)

theorem Has.stack_zero (h : F.Has e) : e.stack[0]? = some Environment.global.root := by
  rw [← List.head?_eq_getElem?, Environment.stack, List.head?_reverse]
  exact h.pairwise.2

end ScopeTree

namespace Session

variable {s : Settings} {frames : Nat} {past : History} {m : Machine}

/-- A function that was made in a run of the session. -/
def MadeFunction (s : Settings) (frames : Nat) (past : History) (f : Closure) : Prop :=
  ∃ c, Made s frames past c ∧ c.Makes f

/-- The calls of a session and the functions that they make. -/
def origin (s : Settings) (frames : Nat) (past : History) : Origin s where
  calls := Made s frames past
  functions := MadeFunction s frames past
  closed := by
    rintro c d ⟨p, m, calls, hp, hc⟩ hd
    exact ⟨p, m, c :: calls, hp, hc.call hd⟩
  made hc hf := ⟨_, hc, hf⟩

theorem MadeFunction.cons {f : Closure} (h : MadeFunction s frames past f) (run : Program × Machine) :
    MadeFunction s frames (run :: past) f := by
  obtain ⟨c, ⟨p, m, calls, hp, hc⟩, hf⟩ := h
  exact ⟨c, ⟨p, m, calls, List.mem_cons_of_mem _ hp, hc⟩, hf⟩

end Session

namespace Run

variable {s : Settings} {frames : Nat} {past : History} {m : Machine} {F : ScopeTree} {p : Program}

/-- The statements of a program are executed one by one, each as a call of the session. -/
theorem upholds_statements (hp : (p, m) ∈ past) {before after : List Node}
    (hsplit : p = before ++ after) :
    Upholds (Session.MadeFunction s frames past) F (fun _ _ => True) (do
      note s 1 ("interpret " ++ toString p.length ++ " statements")
      sequence (topLevel s frames) before) m := by
  induction before using List.reverseRecOn generalizing after with
  | nil => exact .still_bind (.note quietLaw_still s 1 _) fun _ => .pure trivial
  | append_singleton before n ih =>
    rw [List.append_assoc] at hsplit
    simp only [sequence_append]
    rw [← bind_assoc]
    refine .bind (ih hsplit) fun {G c m'} _ hbefore _ => ?_
    cases c with
    | returned v => exact .pure trivial
    | normal =>
      have hcall : (Session.origin s frames past).calls ⟨frames, .execute n, m'⟩ :=
        ⟨p, m, [], hp, .statement hsplit hbefore⟩
      have hexecute := (allUphold (Session.origin s frames past) frames).execute (F := G) hcall
      refine .bind (.caughtAt _ hexecute) fun {H c _} _ _ _ => ?_
      cases c with
      | normal => exact .pure trivial
      | returned v => exact .pure trivial

/-- Whenever a call is underway, a tree holds the machine that it began on and has the environments that
the calls before it have kept. -/
theorem Underway.held {c : Call} {calls : List Call} (hp : (p, m) ∈ past)
    (h : Underway s frames p m (c :: calls)) (hm : F.Holds (Session.MadeFunction s frames past) m) :
    ∃ G : ScopeTree, G.Holds (Session.MadeFunction s frames past) c.machine ∧
      (∀ v ∈ c.passed, G.Knows (Session.MadeFunction s frames past) v) ∧
      ∀ d ∈ calls, G.Has d.machine.environment := by
  generalize hrow : c :: calls = row at h
  induction h generalizing c calls with
  | statement hsplit hbefore =>
    obtain ⟨rfl, rfl⟩ := List.cons.inj hrow
    obtain ⟨G, -, hm', -⟩ := (upholds_statements hp hsplit).ok hm hbefore
    exact ⟨G, hm', List.forall_mem_nil _, List.forall_mem_nil _⟩
  | @call c' d calls' h hd ih =>
    obtain ⟨rfl, rfl⟩ := List.cons.inj hrow
    obtain ⟨G, hG, hpassed, hkept⟩ := ih rfl
    have hcall : (Session.origin s frames past).calls c' := ⟨p, m, calls', hp, h⟩
    obtain ⟨H, hH, hbegun, hgiven⟩ := hd.held hcall hG hpassed
    refine ⟨H, hbegun, hgiven, fun d hmem => ?_⟩
    rcases List.mem_cons.1 hmem with rfl | hmem
    · exact hG.environment.mono hH
    · exact (hkept d hmem).mono hH

end Run

namespace Session

variable {s : Settings} {frames : Nat} {past : History} {m : Machine} {saved : List Environment}

theorem held (h : Session s frames past m) :
    ∃ F : ScopeTree, F.Holds (MadeFunction s frames past) m := by
  induction h with
  | fresh clock => exact ⟨.single, ScopeTree.holds_fresh _ clock⟩
  | noted _ trace ih =>
    obtain ⟨F, hF⟩ := ih
    exact ⟨F, hF.fresh, hF.environment, hF.bound⟩
  | renewed _ ih =>
    obtain ⟨F, hF⟩ := ih
    exact ⟨F, hF.set (ScopeTree.knows_of_closure?_eq_none rfl) _ _⟩
  | taken _ ih =>
    obtain ⟨F, hF⟩ := ih
    exact ⟨F, hF.fresh, hF.environment, hF.bound⟩
  | @interpreted past m _ p ih =>
    obtain ⟨F, hF⟩ := ih
    have hbegin := hF.mono fun f hf => hf.cons (p, m)
    have hsplit : p = p ++ [] := (List.append_nil p).symm
    have hinterpret : Run.interpret s frames p = (do
        let _ ← (do
          Run.note s 1 ("interpret " ++ toString p.length ++ " statements")
          Run.sequence (Run.topLevel s frames) p)
        Run.note s 1 "interpret finished") := by
      rw [Run.interpret, bind_assoc]
    have hall : Run.Upholds (MadeFunction s frames ((p, m) :: past)) F (fun _ _ => True)
        (Run.interpret s frames p) m := by
      rw [hinterpret]
      refine .bind (Run.upholds_statements List.mem_cons_self hsplit) fun _ _ _ => ?_
      exact .still (.note Run.quietLaw_still s 1 _) fun _ _ _ => trivial
    obtain ⟨G, -, hG, -⟩ := hall hbegin
    exact ⟨G, hG⟩

/-- In a state of a session a tree holds the machine and has the environments that were kept. -/
theorem State.held (h : State s frames past m saved) :
    ∃ F : ScopeTree, F.Holds (MadeFunction s frames past) m ∧ ∀ e ∈ saved, F.Has e := by
  cases h with
  | between h =>
    obtain ⟨F, hF⟩ := h.held
    exact ⟨F, hF, nofun⟩
  | @begun past m p c calls h hc =>
    obtain ⟨F, hF⟩ := h.held
    obtain ⟨G, hG, -, hkept⟩ :=
      hc.held List.mem_cons_self (hF.mono fun f hf => hf.cons (p, m))
    exact ⟨G, hG, List.forall_mem_map.2 hkept⟩
  | @ended past m p c calls h hc =>
    obtain ⟨F, hF⟩ := h.held
    obtain ⟨G, hG, hpassed, hkept⟩ :=
      hc.held List.mem_cons_self (hF.mono fun f hf => hf.cons (p, m))
    have hcall : (origin s frames ((p, m) :: past)).calls c :=
      ⟨p, m, calls, List.mem_cons_self, hc⟩
    obtain ⟨H, hH, hend, -⟩ := Run.upholds_run hcall hpassed hG
    exact ⟨H, hend, List.forall_mem_map.2 fun d hd => (hkept d hd).mono hH⟩

/-- The scopes always form a tree. Wherever two environments that are alive have the same scope, they have
it at the same place and agree below it. None has a scope twice, and all have the same global scope. The
environment of a function that is bound is the one that was current when a declaration made it. -/
theorem scopes_form_a_tree (h : State s frames past m saved) :
    (∀ e e' : Environment, e.Alive m saved → e'.Alive m saved → ∀ i j id,
      e.stack[i]? = some id → e'.stack[j]? = some id → i = j ∧ e.stack.take i = e'.stack.take j) ∧
    (∀ e : Environment, e.Alive m saved → e.stack.Nodup ∧ e.stack[0]? = some Environment.global.root) ∧
    (∀ id name f, (name, .function f) ∈ (m.store.scope id).bindings →
      ∃ c, Made s frames past c ∧ c.Makes f) := by
  obtain ⟨F, hF, hkept⟩ := h.held
  have halive : ∀ {e : Environment}, e.Alive m saved → F.Has e := by
    intro e he
    cases he with
    | current => exact hF.environment
    | saved hmem => exact hkept e hmem
    | closure hf => exact (hF.bound hf _ rfl).1
  refine ⟨fun e e' he he' i j id hi hj => ?_, fun e he => ?_, fun id name f hf => ?_⟩
  · exact (halive he).meet (halive he') hi hj
  · exact ⟨(halive he).stack_nodup, (halive he).stack_zero⟩
  · exact (hF.bound hf f rfl).2

/-- The word for a name, on the first line. -/
def wordOfName (name : String) : Token := ⟨.identifier, .text name, .text name, 1⟩

/-- A function that is declared in a block. -/
def localFunction : Node := .function (.token (wordOfName "f")) [] (.block [])

theorem scopes_form_a_tree_localFunction :
    let m := Machine.fresh (Clock.steady 0)
    let past : History := [([.block [localFunction]], m)]
    let saved := [m.pushScope.environment, m.environment]
    let after := (Call.ending ⟨0, 1⟩ ⟨2, .execute localFunction, m.pushScope⟩).2
    let f : Closure := ⟨wordOfName "f", [], .block [], ⟨1, [0]⟩⟩
    (State ⟨0, 1⟩ 4 past after saved ∧
      (.word "f", .function f) ∈ (after.store.scope 1).bindings) ∧
    f.environment.stack.take 1 = m.pushScope.environment.stack.take 1 ∧
    f.environment.stack.Nodup ∧ ∃ c, Made ⟨0, 1⟩ 4 past c ∧ c.Makes f := by
  intro m past saved after f
  have hblock : Run.Underway ⟨0, 1⟩ 4 [.block [localFunction]] m
      [⟨4, .execute (.block [localFunction]), m⟩] :=
    @Run.Underway.statement _ _ _ _ [] _ _ _ rfl rfl
  have hinside := hblock.call .block
  have hfunction : Run.Underway ⟨0, 1⟩ 4 [.block [localFunction]] m
      [⟨2, .execute localFunction, m.pushScope⟩, ⟨3, .executeAll [localFunction], m.pushScope⟩,
        ⟨4, .execute (.block [localFunction]), m⟩] :=
    hinside.call (@Run.Calls.statement _ _ _ _ [] _ _ rfl)
  have hstate : State ⟨0, 1⟩ 4 past after saved := .ended (.fresh (Clock.steady 0)) hfunction
  have hbound : (.word "f", .function f) ∈ (after.store.scope 1).bindings :=
    Scope.mem_of_get? rfl
  have hclosure : f.environment.Alive after saved := .closure hbound
  have hsaved : m.pushScope.environment.Alive after saved := .saved List.mem_cons_self
  obtain ⟨htree, hown, hmade⟩ := scopes_form_a_tree hstate
  obtain ⟨-, hbelow⟩ := htree f.environment m.pushScope.environment hclosure hsaved 1 1 1 rfl rfl
  exact ⟨⟨hstate, hbound⟩, hbelow, (hown f.environment hclosure).1, hmade 1 (.word "f") f hbound⟩

end Session

end Lox
