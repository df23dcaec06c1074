import Lox.Proofs.Run.Bindings
import Lox.Proofs.Run.Programs

/-!
Sessions: what happens on one machine, from a fresh one on. Programs run one after the other, whether they
fail or not. Inside a run the calls of the evaluator that are underway stand in a row, the one begun last
in front.
-/

set_option autoImplicit false

namespace Lox

/-- The programs that ran so far, the last one in front, each with the machine that it began on. -/
abbrev History := List (Program × Machine)

/-- The machines between the runs of a session. At any time the builtin functions may be bound anew and
the output taken away. What is noted down, as by the scan and the parse, is left open. -/
inductive Session (s : Settings) (frames : Nat) : History → Machine → Prop where
  | fresh (clock : Clock) : Session s frames [] (.fresh clock)
  | noted {past : History} {m : Machine} (h : Session s frames past m) (trace : Array String) :
      Session s frames past { m with trace }
  | renewed {past : History} {m : Machine} (h : Session s frames past m) :
      Session s frames past m.installBuiltins
  | taken {past : History} {m : Machine} (h : Session s frames past m) :
      Session s frames past m.takeOutput.2
  | interpreted {past : History} {m : Machine} (h : Session s frames past m) (p : Program) :
      Session s frames ((p, m) :: past) (Run.interpret s frames p m).2

namespace Run

/-- The calls that are underway at some point of a program's run from a machine. The last in the row is
the execution of a statement of the program, which began once all before it were done. -/
inductive Underway (s : Settings) (frames : Nat) (p : Program) (m : Machine) :
    List Call → Prop where
  | statement {before after : List Node} {n : Node} {m' : Machine} (hp : p = before ++ n :: after)
      (h : (do
        note s 1 ("interpret " ++ toString p.length ++ " statements")
        sequence (topLevel s frames) before) m = (.ok .normal, m')) :
      Underway s frames p m [⟨frames, .execute n, m'⟩]
  | call {c d : Call} {calls : List Call} (h : Underway s frames p m (c :: calls))
      (hd : Calls s c d) : Underway s frames p m (d :: c :: calls)

end Run

namespace Session

variable {s : Settings} {frames : Nat} {past : History} {m : Machine}

/-- A call that was made in a run of the session. -/
def Made (s : Settings) (frames : Nat) (past : History) (c : Call) : Prop :=
  ∃ p m calls, (p, m) ∈ past ∧ Run.Underway s frames p m (c :: calls)

/-- The states of a session, between runs and inside them, where a call begins or ends. With a machine go
the environments that the calls underway have kept, to come back to. -/
inductive State (s : Settings) (frames : Nat) : History → Machine → List Environment → Prop where
  | between {past : History} {m : Machine} (h : Session s frames past m) :
      State s frames past m []
  | begun {past : History} {m : Machine} {p : Program} {c : Call} {calls : List Call}
      (h : Session s frames past m) (hc : Run.Underway s frames p m (c :: calls)) :
      State s frames ((p, m) :: past) c.machine (calls.map fun d => d.machine.environment)
  | ended {past : History} {m : Machine} {p : Program} {c : Call} {calls : List Call}
      (h : Session s frames past m) (hc : Run.Underway s frames p m (c :: calls)) :
      State s frames ((p, m) :: past) (c.ending s).2 (calls.map fun d => d.machine.environment)

/-- Running a source text goes on with a session. -/
theorem run (h : Session s frames past m) (text : String) :
    ∃ more, Session s frames (more ++ past) (m.run s frames text).2 := by
  cases hp : Program.ofSource frames text with
  | error r =>
    obtain ⟨trace, ht⟩ := Machine.run_of_error (s := s) hp m
    rw [ht]
    exact ⟨[], h.noted trace⟩
  | ok p =>
    obtain ⟨trace, ht⟩ := Run.stages_eq s frames text m
    have hsource : (Run.source s frames text m).2 =
        (Run.interpret s frames p { m with trace }).2 := by
      rw [Run.source_of_ok hp, Run.bind_apply, ht]
      exact Run.map_snd Except.ok (Run.interpret s frames p) { m with trace }
    rw [Machine.run_snd, hsource]
    exact ⟨[(p, { m with trace })], (h.noted trace).interpreted p⟩

theorem runAll (h : Session s frames past m) (texts : List String) :
    ∃ more, Session s frames (more ++ past) (m.runAll s frames texts) := by
  induction texts generalizing past m with
  | nil => exact ⟨[], h⟩
  | cons text texts ih =>
    obtain ⟨more, hrun⟩ := h.run text
    obtain ⟨rest, hall⟩ := ih hrun
    rw [← List.append_assoc] at hall
    exact ⟨rest ++ more, hall⟩

/-- The calls of a source text's run are underway in a run of the session. -/
theorem underway_of_reached (h : Session s frames past m) {text : String} {c : Call}
    (hc : Run.Reached s frames text m c) : ∃ p m' calls, Session s frames past m' ∧
      Run.Underway s frames p m' (c :: calls) := by
  obtain ⟨hp, hb, hcalls⟩ := hc
  obtain ⟨trace, ht⟩ := Run.stages_eq s frames text m
  rw [Run.bind_apply, ht] at hb
  have hbegin := Run.Underway.statement rfl hb
  induction hcalls with
  | refl => exact ⟨_, _, [], h.noted trace, hbegin⟩
  | tail _ hd ih =>
    obtain ⟨p, m', calls, hm', hrow⟩ := ih
    exact ⟨p, m', _, hm', hrow.call hd⟩

end Session

end Lox
