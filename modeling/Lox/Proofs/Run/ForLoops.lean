import Lox.Proofs.Parse.Loops
import Lox.Proofs.Run.Endings
import Lox.Proofs.Run.Frames

/-!
`for` loops. Main statement: the blocks and the `while` loop that a `for` statement is rewritten to run as
the loop itself, of which a turn opens no scope. The scope that a turn of the rewritten loop opens stays
empty, and nothing that is run later tells that it was there.
-/

set_option autoImplicit false

namespace Lox

namespace Run

/-- A turn of a loop: the body and, unless that returned, the increment. -/
def turn (body : Run Completion) (increment : Run Unit) : Run Completion := do
  match ← body with
  | .normal => do
    increment
    return .normal
  | .returned v => return .returned v

/-- A `for` loop itself: in one new scope the initializer once, and then turns as long as the condition is
truthy. -/
def forLoop (initializer : Run Unit) (condition : Run Value) (body : Run Completion)
    (increment : Run Unit) (turns : Nat) : Run Completion :=
  inScope do
    initializer
    loop condition (turn body increment) turns

theorem sequence_singleton (statement : Node → Run Completion) (n : Node) :
    sequence statement [n] = statement n := by
  rw [sequence]
  refine (congrArg _ (funext fun c => ?_)).trans (bind_pure (statement n))
  cases c <;> rfl

theorem sequence_cons_of_endsNormally {statement : Node → Run Completion} {n : Node}
    (h : EndsNormally (statement n)) (ns : List Node) :
    sequence statement (n :: ns) = (do
      let _ ← statement n
      sequence statement ns) := by
  funext m
  rw [sequence, bind_apply, bind_apply]
  cases hr : statement n m with
  | mk r m' =>
    cases r with
    | error stop => rfl
    | ok c =>
      obtain rfl : c = .normal := h m c m' hr
      rfl

end Run

namespace ForClauses

open Run

/-- The nodes of a turn. -/
def turnNodes (c : ForClauses) : List Node :=
  c.body :: (c.increment.map Node.expression).toList

variable (s : Settings) (frames : Nat) (c : ForClauses)

def prepare : Run Unit :=
  match c.initializer with
  | none => return ()
  | some n => do
    let _ ← execute s frames n
    return ()

/-- Without a condition the loop goes on. -/
def holds : Run Value :=
  match c.condition with
  | none => return .bool true
  | some n => evaluate s frames n

def advance : Run Unit :=
  match c.increment with
  | none => return ()
  | some n => do
    let _ ← evaluate s frames n
    return ()

/-- The loop that the clauses stand for. -/
def run : Run Completion :=
  forLoop (c.prepare s frames) (c.holds s frames) (execute s frames c.body) (c.advance s frames)
    s.turns

theorem sequence_turnNodes : Run.sequence (execute s (frames + 1)) c.turnNodes =
    turn (execute s (frames + 1) c.body) (c.advance s frames) := by
  obtain ⟨i, h, r, body⟩ := c
  rw [turnNodes, Run.sequence, turn]
  refine congrArg _ (funext fun c => ?_)
  cases c with
  | returned v => rfl
  | normal =>
    cases r with
    | none => rfl
    | some n =>
      change Run.sequence _ [.expression n] = _
      rw [sequence_singleton]
      simp only [advance, bind_assoc, pure_bind]
      rfl

theorem sequence_initializer (hc : c.WellFormed) (ns : List Node) :
    Run.sequence (execute s frames) (c.initializer.toList ++ ns) = (do
      c.prepare s frames
      Run.sequence (execute s frames) ns) := by
  obtain ⟨i, h, r, body⟩ := c
  cases i with
  | none => rfl
  | some n =>
    have hn := hc.initializer n rfl
    change Run.sequence _ (n :: ns) = _
    rw [sequence_cons_of_endsNormally (endsNormally_execute hn s frames)]
    simp only [prepare, bind_assoc, pure_bind]

/-- What the clauses are rewritten to runs the same parts, but each turn in a scope of its own. -/
theorem execute_tree (hc : c.WellFormed) (keyword : Token) :
    execute s (frames + 6) (c.tree keyword) = inScope (do
      c.prepare s (frames + 4)
      loop (c.holds s (frames + 3)) (inScope (Run.sequence (execute s (frames + 1)) c.turnNodes))
        s.turns) := by
  obtain ⟨i, h, r, body⟩ := c
  change inScope (Run.sequence (execute s (frames + 4)) (i.toList ++ [.whileDo _ _])) = _
  rw [sequence_initializer s (frames + 4) _ hc, sequence_singleton]
  cases h <;> cases r <;> rfl

/-- The initializer and the turns leave the scopes as they were if a turn does. -/
theorem keeps_parts {x : Run Completion} (hx : Keeps ScopesKept x) (before : Nat) :
    Keeps ScopesKept (do
      c.prepare s before
      loop (c.holds s frames) x s.turns) := by
  have hprepare : Keeps ScopesKept (c.prepare s before) := by
    unfold prepare
    split
    · exact .pure law_scopesKept _
    · exact .bind law_scopesKept ((allKeep law_scopesKept s before).execute _) fun _ =>
        .pure law_scopesKept _
  have hholds : Keeps ScopesKept (c.holds s frames) := by
    unfold holds
    split
    · exact .pure law_scopesKept _
    · exact (allKeep law_scopesKept s frames).evaluate _
  exact .bind law_scopesKept hprepare fun _ => .loop law_scopesKept hholds hx s.turns

theorem keeps_turnNodes : Keeps ScopesKept (Run.sequence (execute s frames) c.turnNodes) :=
  .sequence law_scopesKept (allKeep law_scopesKept s frames).execute _

open Simulation (thinned)

variable {w : Thinning}

theorem simulates_prepare :
    Simulates thinned w (fun _ _ _ => True) (c.prepare s frames) (c.prepare s frames) := by
  unfold prepare
  split
  · exact .pure fun _ => trivial
  · exact .bind ((allSimulate thinned s frames).execute (.refl (fun _ => rfl) _)) fun _ _ =>
      .pure fun _ => trivial

theorem simulates_holds :
    Simulates thinned w thinned.Values (c.holds s frames) (c.holds s frames) := by
  unfold holds
  split
  · exact .pure fun _ => .same rfl
  · exact (allSimulate thinned s frames).evaluate (.refl (fun _ => rfl) _)

theorem declared_turnNodes (hc : c.WellFormed) : ∀ n ∈ c.turnNodes, n.declared = [] := by
  refine List.forall_mem_cons.2 ⟨hc.body, fun n hn => ?_⟩
  obtain ⟨e, -, rfl⟩ := Option.map_eq_some_iff.1 (Option.mem_toList.1 hn)
  rfl

/-- The rewritten loop and the loop itself, each part with the frames that it has in the rewritten one. -/
theorem simulates_tree (hc : c.WellFormed) (keyword : Token) :
    Simulates thinned w thinned.Completions (execute s (frames + 6) (c.tree keyword))
      (forLoop (c.prepare s (frames + 4)) (c.holds s (frames + 3)) (execute s (frames + 1) c.body)
        (c.advance s frames) s.turns) := by
  have hturn := c.keeps_turnNodes s (frames + 1)
  rw [execute_tree s frames c hc, forLoop, ← sequence_turnNodes]
  refine .inScope (c.keeps_parts s (frames + 3) (.inScope law_scopesKept hturn) (frames + 4))
    (c.keeps_parts s (frames + 3) hturn (frames + 4)) ?_
  refine .bind (c.simulates_prepare s (frames + 4)) fun _ _ => .loop (fun _ => ?_) (fun _ => ?_) _
  · exact c.simulates_holds s (frames + 3)
  · exact simulates_needless_scope (c.declared_turnNodes hc) s (frames + 1)

variable {frames} {more : Nat}

theorem extends_prepare (h : frames ≤ more) : Extends (c.prepare s frames) (c.prepare s more) := by
  unfold prepare
  split
  · exact .pure _
  · exact .bind (extends_execute h s _) fun _ => .pure _

theorem extends_holds (h : frames ≤ more) : Extends (c.holds s frames) (c.holds s more) := by
  unfold holds
  split
  · exact .pure _
  · exact extends_evaluate h s _

theorem extends_advance (h : frames ≤ more) : Extends (c.advance s frames) (c.advance s more) := by
  unfold advance
  split
  · exact .pure _
  · exact .bind (extends_evaluate h s _) fun _ => .pure _

theorem extends_run (h : frames ≤ more) : Extends (c.run s frames)
    (forLoop (c.prepare s (more + 4)) (c.holds s (more + 3)) (execute s (more + 1) c.body)
      (c.advance s more) s.turns) := by
  have hbody : Extends (execute s frames c.body) (execute s (more + 1) c.body) :=
    extends_execute (Nat.le_add_right_of_le h) s c.body
  have hprepare := c.extends_prepare s (show frames ≤ more + 4 from Nat.le_add_right_of_le h)
  refine .inScope (.bind hprepare fun _ => .loop ?_ (.bind hbody fun r => ?_) s.turns)
  · exact c.extends_holds s (Nat.le_add_right_of_le h)
  · cases r with
    | normal => exact .bind (c.extends_advance s h) fun _ => .pure _
    | returned v => exact .pure _

end ForClauses

/-- The rewritten loop and the loop itself, with as many frames as either needs. -/
theorem ForClauses.endsThinned {c : ForClauses} (hc : c.WellFormed) (keyword : Token) {s : Settings}
    {limit limit' : Nat} {m : Machine} (hm : m.Grounded)
    (htree : ∀ stop, stop.IsOverflow → (Run.execute s limit (c.tree keyword) m).1 ≠ .error stop)
    (hloop : ∀ stop, stop.IsOverflow → (c.run s limit' m).1 ≠ .error stop) :
    ∃ w, m.EndsThinned w (Run.execute s limit (c.tree keyword) m) (c.run s limit' m) := by
  -- With so many frames more the rewritten loop has as many for each part as the loop itself was given.
  have hmore : limit ≤ limit + limit' + 6 := by omega
  have hmore' : limit' ≤ limit + limit' := by omega
  rw [← (Run.extends_execute hmore s (c.tree keyword)).eq_of_not_overflow htree,
    ← (c.extends_run s hmore').eq_of_not_overflow hloop]
  obtain ⟨w, hgrows, hmachines, hends⟩ := c.simulates_tree s (limit + limit') hc keyword
    (.reached m) m m (.refl _) (Thinning.reached_machines hm)
  refine ⟨w, hgrows, hmachines, hends, ?_, ?_⟩
  · exact ((Run.allKeep Run.law_scopesKept s _).execute _ m).environment
  · rw [Run.forLoop, ← sequence_turnNodes]
    have hparts := c.keeps_parts s (limit + limit' + 3) (c.keeps_turnNodes s (limit + limit' + 1))
      (limit + limit' + 4)
    exact (Run.Keeps.inScope Run.law_scopesKept hparts m).environment

/-- The rewriting of `for` statements preserves their meaning. Whatever `for` statement the parser reads,
it gives the rewritten form of the clauses that it read, and on every machine of which the scopes are
there, as those of a session are, this runs as the loop itself does if neither overflows: it prints the
same, ends normally, with the same value or with the same fault, and leaves all variables that could be
got at displayed the same. Afterwards every name is found where it was before, so that the loop variable
is gone. And whatever runs then, functions that the body left behind or returned included, the scopes that
the turns of the rewritten loop opened are not noticed. -/
theorem for_rewriting_preserves_meaning {source : Source} {frames : Nat} {keyword : Token}
    {p q : Parser} {n : Node}
    (h : Parse.forStatement source (frames + 1) keyword p = (.ok n, q)) :
    ∃ c, Parse.forClauses source frames p = (.ok c, q) ∧ n = c.tree keyword ∧
      ∀ (s : Settings) (limit limit' : Nat) (m : Machine), m.Grounded →
        (∀ stop, stop.IsOverflow → (Run.execute s limit n m).1 ≠ .error stop) →
        (∀ stop, stop.IsOverflow → (c.run s limit' m).1 ≠ .error stop) →
        (∀ name, (Run.execute s limit n m).2.environment.find? (Run.execute s limit n m).2.store
          name = m.environment.find? m.store name) ∧
        ∀ sequels, m.LooksAlike (Sequel.runAll sequels (Run.execute s limit n m))
          (Sequel.runAll sequels (c.run s limit' m)) := by
  obtain ⟨c, hread, rfl⟩ := Parse.forStatement_ok h
  refine ⟨c, hread, rfl, fun s limit limit' m hm htree hloop => ⟨fun name => ?_, fun sequels => ?_⟩⟩
  · exact Run.find?_execute rfl hm s limit name
  · have hc := Parse.gives_forClauses source frames p c q hread
    obtain ⟨w, hends⟩ := c.endsThinned hc keyword hm htree hloop
    obtain ⟨u, hlater⟩ := hends.runAll sequels
    exact hlater.looksAlike

/-- A token of a text of one line. -/
def Token.spelled (kind : Kind) (text : String) : Token := ⟨kind, .text text, .text text, 1⟩

/-- `(var a = true; a; a = false) { fun f() { print a; } g = f; }`, after the keyword. -/
def escapingTokens : List Token :=
  [.spelled .leftParen "(", .spelled .varWord "var", .spelled .identifier "a", .spelled .equal "=",
    .spelled .trueWord "true", .spelled .semicolon ";", .spelled .identifier "a",
    .spelled .semicolon ";", .spelled .identifier "a", .spelled .equal "=",
    .spelled .falseWord "false", .spelled .rightParen ")", .spelled .leftBrace "\x7b",
    .spelled .funWord "fun", .spelled .identifier "f", .spelled .leftParen "(",
    .spelled .rightParen ")", .spelled .leftBrace "\x7b", .spelled .printWord "print",
    .spelled .identifier "a", .spelled .semicolon ";", .spelled .rightBrace "\x7d",
    .spelled .identifier "g", .spelled .equal "=", .spelled .identifier "f", .spelled .semicolon ";",
    .spelled .rightBrace "\x7d"]

/-- Its clauses. The turn leaves a function behind, which has the scopes of the turn around it. -/
def escapingClauses : ForClauses :=
  let name (text : String) : Node := .token (.spelled .identifier text)
  { initializer := some (.var (name "a") (.literal (.token (.spelled .trueWord "true"))))
    condition := some (.variable (name "a"))
    increment := some (.assign (name "a") (.literal (.token (.spelled .falseWord "false"))))
    body := .block [.function (name "f") [] (.block [.print (.variable (name "a"))]),
      .expression (.assign (name "g") (.variable (name "f")))] }

/-- A machine with a global variable `g`. -/
def escapingMachine : Machine :=
  (Run.interpret ⟨0, 3⟩ 40 [.var (.token (.spelled .identifier "g")) .missing]
    (.fresh (Clock.steady 0))).2

/-- A call of `g`. -/
def escapingCall : Sequel :=
  let g : Node := .variable (.token (.spelled .identifier "g"))
  ⟨⟨0, 3⟩, 40, .spelled .identifier "r", [.expression (.call g (.token (.endAt 1)) [])]⟩

theorem for_rewriting_preserves_meaning_escaping :
    let n := escapingClauses.tree (.endAt 1)
    let tree := Run.execute ⟨0, 3⟩ 30 n escapingMachine
    let loop := escapingClauses.run ⟨0, 3⟩ 20 escapingMachine
    (Parse.forStatement (.ofTokens escapingTokens) 21 (.endAt 1) (.ofTokens escapingTokens) =
        (.ok n, ⟨[], #[], 0⟩) ∧ escapingMachine.Grounded ∧
      (∀ stop, stop.IsOverflow → tree.1 ≠ .error stop) ∧
      ∀ stop, stop.IsOverflow → loop.1 ≠ .error stop) ∧
    (escapingCall.run tree).2.output = "false\n" ∧
    escapingMachine.LooksAlike (escapingCall.run tree) (escapingCall.run loop) := by
  intro n tree loop
  have hread : Parse.forClauses (.ofTokens escapingTokens) 20 (.ofTokens escapingTokens) =
    (.ok escapingClauses, ⟨[], #[], 0⟩) := rfl
  have hparse : Parse.forStatement (.ofTokens escapingTokens) 21 (.endAt 1)
      (.ofTokens escapingTokens) = (.ok n, ⟨[], #[], 0⟩) := by
    rw [Parse.forStatement_eq, map_eq_pure_bind, Parse.bind_apply, hread]
    rfl
  have hsession : Session ⟨0, 3⟩ 40 [_] escapingMachine :=
    .interpreted (.fresh (Clock.steady 0)) [.var (.token (.spelled .identifier "g")) .missing]
  have hm : escapingMachine.Grounded := (Session.State.between hsession).grounded
  have hnormal : ∀ {r : Except Stop Completion}, r = .ok .normal →
      ∀ stop, stop.IsOverflow → r ≠ .error stop := by
    rintro _ rfl stop - ⟨⟩
  have htree : tree.1 = .ok .normal := rfl
  have hloop : loop.1 = .ok .normal := rfl
  obtain ⟨c, hc, -, hruns⟩ := for_rewriting_preserves_meaning hparse
  rw [hread] at hc
  obtain rfl : escapingClauses = c := Except.ok.inj (Prod.mk.inj hc).1
  obtain ⟨-, hlater⟩ := hruns ⟨0, 3⟩ 30 20 escapingMachine hm (hnormal htree) (hnormal hloop)
  have hprinted : (escapingCall.run tree).2.output = "false\n" := rfl
  exact ⟨⟨hparse, hm, hnormal htree, hnormal hloop⟩, hprinted, hlater [escapingCall]⟩

end Lox
