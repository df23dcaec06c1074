import Lox.Proofs.Run.Privacy
import Lox.Proofs.Run.Thinning
import Mathlib.Data.List.Find

/-!
Endings of two runs from one machine that differ in empty scopes. Main statement: they look alike, and
they do so still after anything else was run on the machines that they left.
-/

set_option autoImplicit false

namespace Lox

/-- Every scope that can be got at from the environment is there. -/
def Machine.Grounded (m : Machine) : Prop :=
  ∀ id, m.store.Reaches m.environment.scopes id → id < m.store.fresh

theorem Session.State.grounded {s : Settings} {frames : Nat} {past : History} {m : Machine}
    {saved : List Environment} (h : Session.State s frames past m saved) : m.Grounded := by
  have hexecutable : Executable s frames ⟨frames, .executeAll [], m⟩ := h.executable frames rfl
  exact hexecutable.grounded

/-- At first the scopes that can be got at stand for themselves, and none is left out. -/
def Thinning.reached (m : Machine) : Thinning where
  pairing :=
    { pairs := fun i i' => m.store.Reaches m.environment.scopes i ∧ i' = i
      eq_iff := by
        rintro i _ j _ ⟨-, rfl⟩ ⟨-, rfl⟩
        exact Iff.rfl }
  vacant _ := False
  apart _ := id

namespace Thinning

variable {m : Machine}

theorem reached_environments {e : Environment}
    (h : ∀ id ∈ e.scopes, m.store.Reaches m.environment.scopes id) :
    (reached m).Environments e e := by
  obtain ⟨hinner, houter⟩ := List.forall_mem_cons.1 h
  refine ⟨⟨hinner, rfl⟩, ?_⟩
  generalize e.outer = is at houter
  induction is with
  | nil => exact .nil
  | cons i is ih =>
    obtain ⟨hi, his⟩ := List.forall_mem_cons.1 houter
    exact .keep ⟨hi, rfl⟩ (ih his)

theorem reached_stores (hm : m.Grounded) : (reached m).Stores m.store m.store := by
  refine ⟨⟨?_, ?_⟩, fun hi => hm _ hi.1, False.elim⟩
  · rintro i _ ⟨-, rfl⟩
    exact Iff.rfl
  · rintro i _ ⟨hi, rfl⟩
    refine .refl fun b hb => .refl fun f hf => ⟨fun _ _ => rfl, ?_⟩
    obtain ⟨name, v⟩ := b
    obtain rfl : v = .function f := hf
    exact reached_environments fun id hid => .closure hi hb hid

theorem reached_machines (hm : m.Grounded) :
    Simulation.thinned.Machines (reached m) m m :=
  ⟨reached_stores hm, reached_environments fun _ hid => .root hid, rfl, rfl⟩

end Thinning

/-- A statement that declares nothing leaves every name where it was found before. -/
theorem Run.find?_execute {n : Node} (hn : n.declared = []) {m : Machine} (hm : m.Grounded)
    (s : Settings) (frames : Nat) (name : Name) :
    (execute s frames n m).2.environment.find? (execute s frames n m).2.store name =
      m.environment.find? m.store name := by
  rw [((allKeep law_scopesKept s frames).execute n m).environment]
  refine List.find?_congr fun id hid => ?_
  have hgains := (allDeclare id s frames).execute n m (hm id (.root hid))
  rw [Bool.eq_iff_iff]
  refine ⟨fun hb => (hgains.gained name hb).resolve_right ?_, hgains.kept name⟩
  rintro ⟨-, hname⟩
  rw [hn] at hname
  cases hname

/-- The value that a statement returned. -/
def Completion.value : Completion → Value
  | .normal => .nil
  | .returned v => v

/-- What is run next on a machine: statements, with what was returned before kept under a name. -/
structure Sequel where
  settings : Settings
  frames : Nat
  kept : Token
  statements : List Node

/-- How a run went, and on which machine. -/
abbrev Ending := Except Stop Completion × Machine

namespace Sequel

/-- Goes on after an ending, also after a fault. -/
def run (p : Sequel) : Ending → Ending
  | (.ok c, m) => (do
      Run.define p.kept c.value
      Run.executeAll p.settings p.frames p.statements) m
  | (.error _, m) => Run.executeAll p.settings p.frames p.statements m

def runAll (sequels : List Sequel) (x : Ending) : Ending := sequels.foldl (fun x p => p.run x) x

end Sequel

/-- Two endings of a run from a machine that nobody can tell apart who sees what was printed, how the run
ended, and what is displayed of all variables that could be got at from the beginning. Returned values
are the same, and functions have the same declaration. -/
structure Machine.LooksAlike (m : Machine) (x y : Ending) : Prop where
  ends : Ends Eq (Completion.Like Eq fun _ _ => True) x.1 y.1
  output : y.2.output = x.2.output
  clock : y.2.clock = x.2.clock
  environments : x.2.environment = m.environment ∧ y.2.environment = m.environment
  shown : ∀ id, m.store.Reaches m.environment.scopes id →
    (y.2.store.scope id).shown = (x.2.store.scope id).shown

/-- Endings that differ in empty scopes. -/
structure Machine.EndsThinned (m : Machine) (w : Thinning) (x y : Ending) : Prop where
  grows : Thinning.Grows (.reached m) w
  machines : Simulation.thinned.Machines w x.2 y.2
  ends : Ends Eq (Simulation.thinned.Completions w) x.1 y.1
  environments : x.2.environment = m.environment ∧ y.2.environment = m.environment

namespace Machine.EndsThinned

open Run Simulation

variable {m : Machine} {w : Thinning} {x y : Ending}

theorem looksAlike (h : m.EndsThinned w x y) : m.LooksAlike x y where
  ends := by
    have hends := h.ends
    generalize x.1 = r, y.1 = r' at hends
    cases hends with
    | error h => exact .error h
    | ok h =>
      cases h with
      | normal => exact .ok .normal
      | returned hv => exact .ok (.returned (hv.mono fun _ => trivial))
  output := h.machines.output.symm
  clock := h.machines.clock
  environments := h.environments
  shown id hid := (h.machines.store.matched.scopes (h.grows.pairs ⟨hid, rfl⟩)).shown_eq
    Simulation.thinned.sameText

/-- Steps alike go on alike after endings alike. -/
theorem step (h : m.EndsThinned w x y) {f g : Run Completion} (hf : Keeps ScopesKept f)
    (hg : Keeps ScopesKept g) (hfg : Simulates thinned w thinned.Completions f g) :
    ∃ u, m.EndsThinned u (f x.2) (g y.2) := by
  obtain ⟨u, hu, hn, hend⟩ := hfg w x.2 y.2 (.refl w) h.machines
  obtain ⟨hx, hy⟩ := h.environments
  exact ⟨u, h.grows.trans hu, hn, hend, (hf x.2).environment.trans hx, (hg y.2).environment.trans hy⟩

theorem run (h : m.EndsThinned w x y) (p : Sequel) : ∃ u, m.EndsThinned u (p.run x) (p.run y) := by
  have hkeeps := (allKeep law_scopesKept p.settings p.frames).executeAll p.statements
  have hrun : ∀ {v}, Simulates thinned v thinned.Completions
      (executeAll p.settings p.frames p.statements) (executeAll p.settings p.frames p.statements) :=
    (allSimulate thinned p.settings p.frames).executeAll (Node.Like.refl_all (fun _ => rfl) _)
  have hends := h.ends
  obtain ⟨r, n⟩ := x
  obtain ⟨r', n'⟩ := y
  cases hends with
  | error _ => exact h.step hkeeps hkeeps hrun
  | @ok c c' hc =>
    have hvalue : Value.Like Eq w.Environments c.value c'.value := by
      cases hc with
      | normal => exact .same rfl
      | returned hv => exact hv
    have hbind : ∀ v, Keeps ScopesKept (do
        define p.kept v
        executeAll p.settings p.frames p.statements) := fun v =>
      .bind law_scopesKept (.define law_scopesKept p.kept v) fun _ => hkeeps
    refine h.step (hbind c.value) (hbind c'.value) (.bind (.define rfl hvalue) fun _ _ => hrun)

theorem runAll (h : m.EndsThinned w x y) (sequels : List Sequel) :
    ∃ u, m.EndsThinned u (Sequel.runAll sequels x) (Sequel.runAll sequels y) := by
  induction sequels generalizing w x y with
  | nil => exact ⟨w, h⟩
  | cons p sequels ih =>
    obtain ⟨u, hu⟩ := h.run p
    exact ih hu

end Machine.EndsThinned

end Lox
