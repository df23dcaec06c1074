import Lox.Proofs.Run.Steps

/-!
The scope stack over a run. Main statement: whatever the evaluator is asked to do and however it
ends, the environment is afterwards the one before, and no scope of the store is gone.
-/

set_option autoImplicit false

namespace Lox

/-- The same scopes in the same order, all of them still there. What they bind may differ. -/
structure ScopesKept (m m' : Machine) : Prop where
  environment : m'.environment = m.environment
  fresh_le : m.store.fresh ≤ m'.store.fresh

theorem ScopesKept.refl (m : Machine) : ScopesKept m m := ⟨rfl, Nat.le_refl _⟩

theorem ScopesKept.trans {a b c : Machine} (h : ScopesKept a b) (h' : ScopesKept b c) :
    ScopesKept a c :=
  ⟨h'.environment.trans h.environment, Nat.le_trans h.fresh_le h'.fresh_le⟩

theorem ScopesKept.depth_eq {m m' : Machine} (h : ScopesKept m m') :
    m'.environment.depth = m.environment.depth := by rw [h.environment]

/-- What is pushed is popped again when the environment in between is the pushed one. -/
theorem ScopesKept.popScope {m m' : Machine} (h : ScopesKept m.pushScope m') :
    ScopesKept m m'.popScope := by
  have he : m'.environment = m.environment.push m.store.fresh := h.environment
  have hf : m.store.addScope.fresh ≤ m'.store.fresh := h.fresh_le
  rw [Store.fresh_addScope] at hf
  refine ⟨?_, Nat.le_of_succ_le hf⟩
  change m'.environment.pop?.getD m'.environment = m.environment
  rw [he, Environment.pop?_push, Option.getD_some]

theorem Run.law_scopesKept : Law ScopesKept where
  refl := .refl
  trans := .trans
  noted _ _ := ⟨rfl, Nat.le_refl _⟩
  printed _ _ := ⟨rfl, Nat.le_refl _⟩
  bound m id name v := ⟨rfl, by simp⟩
  grown m := ⟨rfl, by simp⟩
  ticked _ _ := ⟨rfl, Nat.le_refl _⟩
  inScope := .popScope
  inEnvironment _ h := ⟨rfl, h.fresh_le⟩

namespace Machine

theorem run_snd (s : Settings) (frames : Nat) (text : String) (m : Machine) :
    (m.run s frames text).2 = (Run.source s frames text m).2 := by
  unfold run
  split <;> rename_i h <;> rw [h]

theorem interpret_snd (s : Settings) (frames : Nat) (program : Program) (m : Machine) :
    (m.interpret s frames program).2 = (Run.interpret s frames program m).2 := by
  rw [interpret_eq]

/-- Runs source texts one after the other, whether they fail or not. -/
def runAll (s : Settings) (frames : Nat) (texts : List String) (m : Machine) : Machine :=
  texts.foldl (fun m text => (m.run s frames text).2) m

theorem scopesKept_run (s : Settings) (frames : Nat) (text : String) (m : Machine) :
    ScopesKept m (m.run s frames text).2 := by
  rw [run_snd]
  exact Run.keeps_source Run.law_scopesKept s frames text m

theorem scopesKept_interpret (s : Settings) (frames : Nat) (program : Program) (m : Machine) :
    ScopesKept m (m.interpret s frames program).2 := by
  rw [interpret_snd]
  exact Run.keeps_interpret Run.law_scopesKept s frames program m

theorem scopesKept_runAll (s : Settings) (frames : Nat) (texts : List String) (m : Machine) :
    ScopesKept m (m.runAll s frames texts) := by
  induction texts generalizing m with
  | nil => exact .refl m
  | cons text texts ih => exact (scopesKept_run s frames text m).trans (ih _)

end Machine

namespace Run

/-- Every call of the evaluator restores the scope stack, for any tree and from any machine, with a
value, a return, a fault, exhaustion or any other stop. So does every run of a program, and a
sequence of runs ends at the depth where it began. -/
theorem scope_stack_restored (s : Settings) (frames : Nat) (m : Machine) :
    (∀ n, ScopesKept m (execute s frames n m).2) ∧
    (∀ ns, ScopesKept m (executeAll s frames ns m).2) ∧
    (∀ n, ScopesKept m (evaluate s frames n m).2) ∧
    (∀ ns, ScopesKept m (evaluateAll s frames ns m).2) ∧
    (∀ f vs paren, ScopesKept m (apply s frames f vs paren m).2) ∧
    (∀ program, ScopesKept m (m.interpret s frames program).2) ∧
    (∀ text, ScopesKept m (m.run s frames text).2) ∧
    (∀ texts, (m.runAll s frames texts).environment = m.environment ∧
      (m.runAll s frames texts).environment.depth = m.environment.depth) := by
  have h := allKeep law_scopesKept s frames
  refine ⟨fun n => h.execute n m, fun ns => h.executeAll ns m, fun n => h.evaluate n m,
    fun ns => h.evaluateAll ns m, fun f vs paren => h.apply f vs paren m, ?_, ?_, ?_⟩
  · intro program
    exact Machine.scopesKept_interpret s frames program m
  · intro text
    exact Machine.scopesKept_run s frames text m
  · intro texts
    have kept := Machine.scopesKept_runAll s frames texts m
    exact ⟨kept.environment, kept.depth_eq⟩

end Run

end Lox
