import Lox.Proofs.Run.Splitting
import Lox.Proofs.Run.TopLevel
import Lox.Proofs.Run.Traces

/-!
Programs run one after the other on one machine, each with the builtin functions bound anew. Main
statement: binding them anew changes nothing but their own global names, so two programs run as one
unless the first leaves something else under such a name.
-/

set_option autoImplicit false

namespace Lox

namespace Scope

theorem setIn_of_lookup {name : Name} {value : Value} {bs : List (Name × Value)}
    (h : bs.lookup name = some value) : setIn name value bs = bs := by
  induction bs with
  | nil => nomatch h
  | cons b bs ih =>
    obtain ⟨n, v⟩ := b
    by_cases hn : n = name
    · subst hn
      obtain rfl : v = value := by simpa using h
      simp [setIn]
    · have hrest : bs.lookup name = some value := by
        simpa [List.lookup_cons, beq_eq_false_iff_ne.2 (Ne.symm hn)] using h
      simp [setIn, hn, ih hrest]

/-- To give a name the value that it has changes nothing. -/
theorem set_of_get? {scope : Scope} {name : Name} {value : Value}
    (h : scope.get? name = some value) : scope.set name value = scope :=
  congrArg Scope.mk (setIn_of_lookup h)

end Scope

theorem Store.set_of_get? {store : Store} {id : ScopeId} {name : Name} {value : Value}
    (h : (store.scope id).get? name = some value) : store.set id name value = store := by
  refine congrArg Store.mk (Array.ext_getElem? fun i => ?_)
  rw [Array.getElem?_modify]
  by_cases hi : id = i
  · subst hi
    cases hs : store.scopes[id]? with
    | none => simp
    | some scope =>
      have hscope : store.scope id = scope := by simp [Store.scope, Array.getD_eq_getD_getElem?, hs]
      rw [hscope] at h
      simp [Scope.set_of_get? h]
  · rw [if_neg hi]

theorem Store.get?_set_of_ne (store : Store) {id other : ScopeId} {n name : Name} (v : Value)
    (h : ¬ (other = id ∧ name = n)) :
    ((store.set id n v).scope other).get? name = (store.scope other).get? name := by
  rcases Nat.lt_or_ge id store.fresh with hid | hid
  · rw [scope_set store id other n v hid]
    by_cases ho : other = id
    · subst ho
      have hn : name ≠ n := fun hn => h ⟨rfl, hn⟩
      rw [if_pos rfl, Scope.get?_set, if_neg hn]
    · rw [if_neg ho]
  · rw [set_of_fresh_le hid]

namespace Run

variable {α : Type} {s : Settings} {frames : Nat} {p : Program}

/-- Any two traces are related. -/
abbrev Unnoted (_ _ : Array String) : Prop := True

theorem noting_unnoted (s : Settings) : s.Noting Unnoted s := ⟨rfl, fun _ _ _ _ _ => trivial⟩

theorem alike_unnoted (m : Machine) : m.Alike Unnoted m := ⟨rfl, rfl, rfl, rfl, trivial⟩

namespace Agree

theorem note_left {x y : Run α} (level : Nat) (line : String) (h : Agree Unnoted x y) :
    Agree Unnoted (do Run.note s level line; x) y := by
  intro m m' hm
  obtain ⟨trace, hnote⟩ := note_eq s level line m
  rw [bind_apply, hnote]
  exact h _ m' ⟨hm.store, hm.environment, hm.output, hm.clock, trivial⟩

theorem note_right {x y : Run α} (level : Nat) (line : String) (h : Agree Unnoted x y) :
    Agree Unnoted x (do Run.note s level line; y) := by
  intro m m' hm
  obtain ⟨trace, hnote⟩ := note_eq s level line m'
  rw [bind_apply, hnote]
  exact h m _ ⟨hm.store, hm.environment, hm.output, hm.clock, trivial⟩

end Agree

theorem EndsNormally.bind_eq {x : Run Completion} (h : EndsNormally x) (y : Run Completion) :
    (do match ← x with
      | .normal => y
      | .returned v => return .returned v) = (do
      let _ ← x
      y) := by
  funext m
  rw [bind_apply, bind_apply]
  cases hx : x m with
  | mk r n =>
    cases r with
    | error stop => rfl
    | ok c =>
      obtain rfl : c = .normal := h m c n hx
      rfl

/-- Statements that end normally are followed by those after them. -/
theorem sequence_append_of_endsNormally {statement : Node → Run Completion} {ns : List Node}
    (h : ∀ n ∈ ns, EndsNormally (statement n)) (ms : List Node) :
    sequence statement (ns ++ ms) = (do
      let _ ← sequence statement ns
      sequence statement ms) :=
  (sequence_append statement ns ms).trans ((EndsNormally.sequence h).bind_eq _)

/-- But for what is noted down, two runs in a row are the run of all the statements. -/
theorem agree_interpret_append (h : ∀ n ∈ p, n.NeverReturns) (s : Settings) (frames : Nat)
    (q : Program) :
    Agree Unnoted (do interpret s frames p; interpret s frames q) (interpret s frames (p ++ q)) := by
  have hends : ∀ n ∈ p, EndsNormally (topLevel s frames n) :=
    fun n hn => endsNormally_topLevel (h n hn) s frames
  have hp := Agree.sequence (agree_topLevel (noting_unnoted s) frames) p
  have hq := Agree.sequence (agree_topLevel (noting_unnoted s) frames) q
  unfold interpret
  rw [sequence_append_of_endsNormally hends]
  simp only [bind_assoc]
  refine .note_left 1 _ (.note_right 1 _ (.bind hp fun _ => ?_))
  refine .note_left 1 _ (.note_left 1 _ (.bind hq fun _ => ?_))
  exact .note (noting_unnoted s) (by decide) _

end Run

namespace Machine

/-- Runs statements with the builtin functions bound anew. -/
def interpretAnew (s : Settings) (frames : Nat) (p : Program) (m : Machine) : Outcome × Machine :=
  m.installBuiltins.interpret s frames p

/-- Runs two programs, the second if the first succeeds, each with the builtin functions bound anew. -/
def interpretBoth (s : Settings) (frames : Nat) (p q : Program) (m : Machine) : Outcome × Machine :=
  match m.interpretAnew s frames p with
  | (.ok, m) => m.interpretAnew s frames q
  | result => result

/-- The builtin functions have their global names. -/
def HasBuiltins (m : Machine) : Prop :=
  (m.store.scope m.environment.root).get? (.word Clock.builtinName) = some (.builtin Clock.builtinName)

theorem runAnew_of_ok {frames : Nat} {text : String} {p : Program}
    (h : Program.ofSource frames text = .ok p) (s : Settings) (m : Machine) :
    m.runAnew s frames text = m.interpretAnew s frames p := by
  simp only [runAnew, h, interpretAnew]

theorem installBuiltins_of_has {m : Machine} (h : m.HasBuiltins) : m.installBuiltins = m := by
  unfold installBuiltins
  rw [Store.set_of_get? h]

/-- Only the builtin functions' own global names are bound anew. -/
theorem get?_installBuiltins (m : Machine) {id : ScopeId} {name : Name}
    (h : ¬ (id = m.environment.root ∧ name = .word Clock.builtinName)) :
    (m.installBuiltins.store.scope id).get? name = (m.store.scope id).get? name :=
  Store.get?_set_of_ne m.store _ h

theorem Alike.globals_eq {T : Array String → Array String → Prop} {m m' : Machine}
    (h : m.Alike T m') : m'.globals = m.globals := by
  rw [globals, globals, h.store, h.environment]

/-- If the first program leaves the builtin functions their global names, two programs run as one. -/
theorem interpretBoth_sameBut {p : Program} (h : ∀ n ∈ p, n.NeverReturns) (s : Settings)
    (frames : Nat) (q : Program) (m : Machine)
    (hb : (m.interpretAnew s frames p).1 = .ok → (m.interpretAnew s frames p).2.HasBuiltins) :
    SameBut Run.Unnoted (m.interpretBoth s frames p q) (m.interpretAnew s frames (p ++ q)) := by
  obtain ⟨hr, hm⟩ := Run.agree_interpret_append h s frames q m.installBuiltins _
    (Run.alike_unnoted _)
  rw [Run.bind_apply] at hr hm
  have hfirst := interpret_eq s frames p m.installBuiltins
  rw [interpretAnew, hfirst] at hb
  rw [interpretBoth, interpretAnew, interpretAnew, hfirst, interpret_eq s frames (p ++ q)]
  generalize Run.interpret s frames p m.installBuiltins = first at hr hm hb ⊢
  obtain ⟨stop | _, n⟩ := first
  · exact ⟨congrArg Outcome.ofUnit hr, hm⟩
  · have hn : n.installBuiltins = n := installBuiltins_of_has (hb rfl)
    change SameBut Run.Unnoted (n.installBuiltins.interpret s frames q) _
    rw [hn, interpret_eq]
    exact ⟨congrArg Outcome.ofUnit hr, hm⟩

end Machine

/-- When a program is run on a machine that earlier ones left, only the builtin functions' own global
names are bound anew: every other binding, the environment and the output stay. So if the first of two
programs fails, or leaves the builtin functions their names, the two run as one program of all their
statements: they print the same, end in the same way, and leave the same names displayed alike. -/
theorem programs_on_one_machine {frames : Nat} {text : String} {p : Program}
    (hp : Program.ofSource frames text = .ok p) (q : Program) (s : Settings) (frames' : Nat)
    (m : Machine)
    (hb : (m.interpretAnew s frames' p).1 = .ok → (m.interpretAnew s frames' p).2.HasBuiltins) :
    (∀ n : Machine,
      (∀ id name, ¬ (id = n.environment.root ∧ name = .word Clock.builtinName) →
        (n.installBuiltins.store.scope id).get? name = (n.store.scope id).get? name) ∧
      n.installBuiltins = { n with store := n.installBuiltins.store }) ∧
    let apart := m.interpretBoth s frames' p q
    let together := m.interpretAnew s frames' (p ++ q)
    Machine.SameBut (fun _ _ => True) apart together ∧
    together.2.shownGlobals = apart.2.shownGlobals := by
  refine ⟨fun n => ⟨fun id name => n.get?_installBuiltins, rfl⟩, ?_⟩
  have hsame := Machine.interpretBoth_sameBut (Program.neverReturns_of_ok hp) s frames' q m hb
  exact ⟨hsame, by rw [Machine.shownGlobals, Machine.shownGlobals, hsame.2.globals_eq]⟩

/-- The program of `var name = true;`. -/
def trueGlobal (name : String) : Program :=
  [.var (.token ⟨.identifier, .text name, .text name, 1⟩)
    (.literal (.token ⟨.trueWord, .text "true", .null, 1⟩))]

/-- The program of `print clock;`. -/
def shownClock : Program :=
  [.print (.variable (.token ⟨.identifier, .text "clock", .text "clock", 1⟩))]

theorem programs_on_one_machine_total :
    let m := Machine.bare (Clock.steady 0)
    let first := m.interpretAnew ⟨0, 1⟩ 40 (trueGlobal "total")
    (Program.ofSource 40 "var total = true;" = .ok (trueGlobal "total") ∧
      (first.1 = .ok → first.2.HasBuiltins)) ∧
    let apart := m.interpretBoth ⟨0, 1⟩ 40 (trueGlobal "total") shownClock
    let together := m.interpretAnew ⟨0, 1⟩ 40 (trueGlobal "total" ++ shownClock)
    Machine.SameBut (fun _ _ => True) apart together ∧
    together.2.shownGlobals = apart.2.shownGlobals := by
  intro m first
  have hp : Program.ofSource 40 "var total = true;" = .ok (trueGlobal "total") := rfl
  have hb : first.1 = .ok → first.2.HasBuiltins := fun _ => rfl
  exact ⟨⟨hp, hb⟩, (programs_on_one_machine hp shownClock ⟨0, 1⟩ 40 m hb).2⟩

/-- A builtin function's name does not keep the value that an earlier program gave it. -/
theorem builtin_names_are_bound_anew :
    let m := Machine.bare (Clock.steady 0)
    let apart := m.interpretBoth ⟨0, 1⟩ 40 (trueGlobal "clock") shownClock
    let together := m.interpretAnew ⟨0, 1⟩ 40 (trueGlobal "clock" ++ shownClock)
    (Program.ofSource 40 "var clock = true;" = .ok (trueGlobal "clock") ∧
      Program.ofSource 40 "print clock;" = .ok shownClock) ∧
    (m.interpretAnew ⟨0, 1⟩ 40 (trueGlobal "clock")).1 = .ok ∧
    (apart.2.output = "<native fn>\n" ∧ together.2.output = "true\n") ∧
    apart.2.shownGlobals = [(.word "clock", "<native fn>")] ∧
    together.2.shownGlobals = [(.word "clock", "true")] :=
  ⟨⟨rfl, rfl⟩, rfl, ⟨rfl, rfl⟩, rfl, rfl⟩

end Lox
