import Lox.Proofs.Run.Pairing
import Lox.Proofs.Run.Programs
import Lox.Proofs.Run.Returns
import Lox.Proofs.Run.Simulation

/-!
Programs in pieces. Main statement: texts that stand one below the other run as they do one after the
other on the same machine, as long as they succeed. Only the lines of tokens differ, by the number of
lines above the text that a token is from.
-/

set_option autoImplicit false

namespace Lox

variable {T : Token → Token → Prop}

theorem accepted_iff {frames : Nat} {text : String} :
    Accepted frames text ↔ ∃ p, Program.ofSource frames text = .ok p := by
  constructor
  · rintro ⟨hs, hp⟩
    exact ⟨_, Program.ofSource_of_none hs hp⟩
  · rintro ⟨p, h⟩
    obtain ⟨hs, hp, -⟩ := Program.clean_of_ok h
    exact ⟨hs, hp⟩

/-- The tokens of the functions that are bound. -/
def Store.Has (st : Store) (t : Token) : Prop :=
  ∃ id name f, (name, Value.function f) ∈ (st.scope id).bindings ∧ f.Has t

/-- Where tokens go when texts are put one below the other: one of a text goes down by the lines above the
text; one of a function that was there before stays, and so does the mark of a statement that has no
token. -/
inductive Text.Moves (frames : Nat) (st : Store) (texts : List String) : Token → Token → Prop where
  | text {above : Nat} {text : String} {n : Node} {t : Token}
      (hp : (above, text) ∈ Text.placed 0 texts) (hn : n ∈ statementsOf frames text) (h : n.Has t) :
      Moves frames st texts t (t.down above)
  | bound {t : Token} (h : st.Has t) : Moves frames st texts t t
  | unmarked : Moves frames st texts (.endAt 0) (.endAt 0)

theorem Text.Moves.sameText {frames : Nat} {st : Store} {texts : List String} {t t' : Token}
    (h : Text.Moves frames st texts t t') : t.SameText t' := by
  cases h with
  | text => exact Token.sameText_down _ t
  | bound => exact ⟨rfl, rfl, rfl⟩
  | unmarked => exact ⟨rfl, rfl, rfl⟩

/-- Statements and the same ones further down. -/
theorem Node.like_down {ns : List Node} {k : Nat} (h : ∀ n ∈ ns, ∀ t, n.Has t → T t (t.down k)) :
    List.Forall₂ (Like T) ns (ns.map (map (Token.down k))) := by
  have hdown := like_mapAll (f := Token.down k) (T := fun t t' => t' = t.down k) (fun _ => rfl) ns
  rw [← mapAll_eq]
  refine Like.imp_all (fun n hn t t' ht heq => ?_) hdown
  rw [heq]
  exact h n hn t ht

/-- Values with the same scopes. -/
abbrev Value.Alike (T : Token → Token → Prop) : Value → Value → Prop :=
  Value.Like T Pairing.same.Environments

/-- The same scopes with the same names, bound to values alike. -/
abbrev Store.Alike (T : Token → Token → Prop) : Store → Store → Prop :=
  Pairing.same.Matches (Value.Alike T)

theorem Store.Alike.refl {st : Store} (h : ∀ t, st.Has t → T t t) : st.Alike T st where
  there := by
    rintro i _ rfl
    exact Iff.rfl
  scopes := by
    rintro i _ rfl
    refine .refl fun b hb => .refl fun f hf => ⟨fun t ht => h t ⟨i, b.1, f, ?_, ht⟩, ?_⟩
    · rwa [← hf]
    · exact Pairing.environments_same.2 rfl

theorem Store.Alike.fresh_eq {st st' : Store} (h : st.Alike T st') : st'.fresh = st.fresh :=
  Nat.le_antisymm (Nat.le_of_not_lt fun hlt => Nat.lt_irrefl _ ((h.there rfl).2 hlt))
    (Nat.le_of_not_lt fun hlt => Nat.lt_irrefl _ ((h.there rfl).1 hlt))

/-- What is displayed of the global bindings. -/
def Machine.shownGlobals (m : Machine) : List (Name × String) :=
  m.globals.map fun b => (b.1, b.2.display)

/-- Two runs in the same scopes, with tokens on other lines. -/
def Simulation.sameScopes (T : Token → Token → Prop) (hT : ∀ {t t'}, T t t' → t.SameText t') :
    Simulation where
  World := Unit
  grows _ _ := True
  tokens := T
  environments _ := Pairing.same.Environments
  stores _ := Store.Alike T
  outputs := Eq
  refl _ := trivial
  trans _ _ := trivial
  sameText := hT
  mono _ he := he
  printed line h := by rw [h]
  get n hs he := hs.get? he n
  define n hs he hv := hs.define he n hv
  assign n hs he hv := hs.assign? he n hv
  enclose {_ st st' e e'} hs he := by
    have hfresh := Store.Alike.fresh_eq hs
    refine ⟨(), trivial, hs.addScope ?_, .cons hfresh.symm he⟩
    rintro i _ rfl
    rw [hfresh]

theorem Machine.shownGlobals_eq (hT : ∀ {t t'}, T t t' → t.SameText t') {m m' : Machine}
    (h : (Simulation.sameScopes T hT).Machines () m m') : m'.shownGlobals = m.shownGlobals := by
  unfold shownGlobals globals
  rw [Pairing.environments_same.1 h.environment]
  exact (h.store.scopes rfl).shown_eq hT

/-- The outcome that a list of statements gives. -/
def Outcome.ofResult : Except Stop Completion → Outcome
  | .ok _ => .ok
  | .error stop => .stopped stop

inductive Outcome.Like (T : Token → Token → Prop) : Outcome → Outcome → Prop where
  | ok : Like T .ok .ok
  | stopped {stop stop' : Stop} (h : stop.Like T stop') : Like T (.stopped stop) (.stopped stop')

namespace Machine

variable {s : Settings} {frames : Nat} {text : String} {texts : List String} {m m' : Machine}

/-- Runs source texts one after the other, as long as they succeed. -/
def runEach (s : Settings) (frames : Nat) : List String → Machine → Outcome × Machine
  | [], m => (.ok, m)
  | text :: texts, m =>
    match m.run s frames text with
    | (.ok, m) => runEach s frames texts m
    | ended => ended

/-- The texts that are run then: all of them, or those up to the first that does not succeed. -/
def tried (s : Settings) (frames : Nat) : List String → Machine → List String
  | [], _ => []
  | text :: texts, m =>
    match m.run s frames text with
    | (.ok, m) => text :: tried s frames texts m
    | _ => [text]

/-- An accepted text runs as its statements do, but for what is noted down before and after. -/
theorem run_of_accepted (h : Accepted frames text) (s : Settings) (m : Machine) :
    ∃ before after, m.run s frames text =
      (.ofResult (Run.sequence (Run.topLevel s frames) (statementsOf frames text)
          { m with trace := before }).1,
        { (Run.sequence (Run.topLevel s frames) (statementsOf frames text)
          { m with trace := before }).2 with trace := after }) := by
  have hok : Program.ofSource frames text = .ok (statementsOf frames text) :=
    Program.ofSource_of_none h.1 h.2
  obtain ⟨staged, hstages⟩ := Run.stages_eq s frames text m
  obtain ⟨before, hbefore⟩ := Run.note_eq s 1 ("interpret " ++
    toString (statementsOf frames text).length ++ " statements") { m with trace := staged }
  have hsource : Run.source s frames text m = (do
      let _ ← Run.sequence (Run.topLevel s frames) (statementsOf frames text)
      Run.note s 1 "interpret finished"
      return (.ok () : Except Rejection Unit)) { m with trace := before } := by
    simp only [Run.source_of_ok hok, Run.interpret, bind_assoc]
    rw [Run.bind_apply, hstages]
    exact (Run.bind_apply _ _ _).trans (by rw [hbefore])
  refine ⟨before, ?_⟩
  rw [run, hsource, Run.bind_apply]
  cases Run.sequence (Run.topLevel s frames) (statementsOf frames text) { m with trace := before } with
  | mk r n =>
    cases r with
    | error stop => exact ⟨n.trace, rfl⟩
    | ok c =>
      obtain ⟨after, hafter⟩ := Run.note_eq s 1 "interpret finished" n
      refine ⟨after, ?_⟩
      simp only [Run.bind_apply, hafter, Run.pure_apply]
      rfl

/-- Text by text the statements of texts below each other run as the texts do. -/
theorem runEach_alike {hT : ∀ {t t'}, T t t' → t.SameText t'} (hend : T (.endAt 0) (.endAt 0))
    (above : Nat) (h : ∀ text ∈ texts, Accepted frames text)
    (hmoved : ∀ p ∈ Text.placed above (m.tried s frames texts), ∀ n ∈ statementsOf frames p.2,
      ∀ t, n.Has t → T t (t.down p.1))
    (hm : (Simulation.sameScopes T hT).Machines () m m') :
    Outcome.Like T (m.runEach s frames texts).1 (.ofResult
        (Run.sequence (Run.topLevel s frames) (Text.statementsBelow frames above texts) m').1) ∧
      (Simulation.sameScopes T hT).Machines () (m.runEach s frames texts).2
        (Run.sequence (Run.topLevel s frames) (Text.statementsBelow frames above texts) m').2 := by
  -- By induction on the texts: the machines are related again wherever one ends and the next begins.
  induction texts generalizing above m m' with
  | nil => exact ⟨.ok, hm⟩
  | cons text texts ih =>
    obtain ⟨htext, htexts⟩ := List.forall_mem_cons.1 h
    obtain ⟨before, after, hrun⟩ := run_of_accepted htext s m
    have hstatements : Text.statementsBelow frames above (text :: texts) =
      (statementsOf frames text).map (Node.map (Token.down above)) ++
        Text.statementsBelow frames (above + lineCount text.toList) texts := rfl
    have hfirst : (above, text) ∈ Text.placed above (m.tried s frames (text :: texts)) := by
      rw [tried]
      split <;> exact List.mem_cons_self
    have hlike := Node.like_down (hmoved _ hfirst)
    obtain ⟨⟨⟩, -, hn, hends⟩ := Run.Simulates.sequence (S := Simulation.sameScopes T hT) (w := ())
      (fun _ => Run.simulates_topLevel hend s frames) hlike () { m with trace := before } m' trivial
      ⟨hm.store, hm.environment, hm.output, hm.clock⟩
    -- A return would end the run of all texts together, but only the run of this one apart.
    have hnormal := Run.EndsNormally.sequence fun n hn =>
      Run.endsNormally_topLevel (htext.neverReturns n hn) s frames
    rw [hstatements, Run.sequence_append, Run.bind_apply, runEach, hrun]
    rw [tried, hrun] at hmoved
    generalize hr : Run.sequence (Run.topLevel s frames) (statementsOf frames text)
      { m with trace := before } = x at hn hends hmoved
    generalize Run.sequence (Run.topLevel s frames)
      ((statementsOf frames text).map (Node.map (Token.down above))) m' = y at hn hends
    obtain ⟨r, n⟩ := x
    obtain ⟨r', n'⟩ := y
    cases hends with
    | error h => exact ⟨.stopped h, hn.store, hn.environment, hn.output, hn.clock⟩
    | @ok c c' hc =>
      obtain rfl : c = .normal := hnormal _ _ _ hr
      cases hc
      exact ih _ htexts (fun p hp => hmoved p (List.mem_cons_of_mem _ hp))
        ⟨hn.store, hn.environment, hn.output, hn.clock⟩

theorem run_stack (h : ∀ text ∈ texts, Accepted frames text) (s : Settings) (m : Machine) :
    Outcome.Like (Text.Moves frames m.store (m.tried s frames texts)) (m.runEach s frames texts).1
        (m.run s frames (Text.stack texts)).1 ∧
      (Simulation.sameScopes (Text.Moves frames m.store (m.tried s frames texts))
        Text.Moves.sameText).Machines () (m.runEach s frames texts).2
          (m.run s frames (Text.stack texts)).2 := by
  obtain ⟨hstack, hstatements⟩ := Accepted.stack h
  obtain ⟨before, after, hrun⟩ := run_of_accepted hstack s m
  have hbegin : (Simulation.sameScopes (Text.Moves frames m.store (m.tried s frames texts))
      Text.Moves.sameText).Machines () m { m with trace := before } :=
    ⟨.refl fun t ht => .bound ht, Pairing.environments_same.2 rfl, rfl, rfl⟩
  obtain ⟨houtcome, hm⟩ := runEach_alike .unmarked 0 h
    (fun p hp n hn t ht => .text hp hn ht) hbegin
  rw [hrun, hstatements]
  exact ⟨houtcome, hm.store, hm.environment, hm.output, hm.clock⟩

end Machine

/-- Texts that are accepted apart are accepted one below the other, and their program is that of the texts
in order, each moved down by the lines above it. From every machine they run as they do one after the other
on that machine, as long as they succeed: with the same output, back in the same environment, and with the
same names bound in every scope, to values that are displayed alike. They stop at the same fault if they
stop, and at a token of a text that was run, moved down with it, or of a function that was there before. -/
theorem split_program_runs_alike {frames : Nat} {texts : List String}
    (h : ∀ text ∈ texts, ∃ p, Program.ofSource frames text = .ok p) :
    Program.ofSource frames (Text.stack texts) = .ok (Text.statementsBelow frames 0 texts) ∧
    ∀ (s : Settings) (m : Machine),
      let T := Text.Moves frames m.store (m.tried s frames texts)
      let apart := m.runEach s frames texts
      let together := m.run s frames (Text.stack texts)
      apart.1.Like T together.1 ∧
      together.2.output = apart.2.output ∧
      together.2.environment = apart.2.environment ∧
      together.2.clock = apart.2.clock ∧
      apart.2.store.Alike T together.2.store ∧
      together.2.shownGlobals = apart.2.shownGlobals := by
  have haccepted : ∀ text ∈ texts, Accepted frames text := fun text ht => accepted_iff.2 (h text ht)
  obtain ⟨hstack, hstatements⟩ := Accepted.stack haccepted
  have hsource : Program.ofSource frames (Text.stack texts) =
    .ok (statementsOf frames (Text.stack texts)) := Program.ofSource_of_none hstack.1 hstack.2
  refine ⟨hsource.trans (congrArg _ hstatements), fun s m => ?_⟩
  obtain ⟨houtcome, hm⟩ := Machine.run_stack haccepted s m
  exact ⟨houtcome, hm.output.symm, Pairing.environments_same.1 hm.environment, hm.clock, hm.store,
    Machine.shownGlobals_eq Text.Moves.sameText hm⟩

/-- Two pieces of three lines. The second fails on its second line. -/
def printedPieces : List String := ["print nil; // one", "print true;\nprint a;"]

theorem split_program_runs_alike_printedPieces :
    let m := Machine.fresh (Clock.steady 0)
    let apart := m.runEach ⟨0, 1⟩ 40 printedPieces
    let together := m.run ⟨0, 1⟩ 40 "print nil; // one\nprint true;\nprint a;"
    let stop (line : Int) := Stop.failed ⟨line, .undefinedVariable (.text "a")⟩
    ((∀ text ∈ printedPieces, ∃ p, Program.ofSource 40 text = .ok p) ∧
      apart.1 = .stopped (stop 2) ∧ apart.2.output = "nil\ntrue\n") ∧
    Outcome.Like (Text.Moves 40 m.store printedPieces) (.stopped (stop 2)) together.1 ∧
    together.1 = .stopped (stop 3) ∧ together.2.output = "nil\ntrue\n" := by
  intro m apart together stop
  have haccepted : ∀ text ∈ printedPieces, ∃ p, Program.ofSource 40 text = .ok p :=
    List.forall_mem_cons.2 ⟨⟨_, rfl⟩, List.forall_mem_singleton.2 ⟨_, rfl⟩⟩
  have hstopped : apart.1 = .stopped (stop 2) := rfl
  have hprinted : apart.2.output = "nil\ntrue\n" := rfl
  have htried : m.tried ⟨0, 1⟩ 40 printedPieces = printedPieces := rfl
  obtain ⟨-, hruns⟩ := split_program_runs_alike haccepted
  obtain ⟨houtcome, houtput, -⟩ := hruns ⟨0, 1⟩ m
  rw [htried] at houtcome
  exact ⟨⟨haccepted, hstopped, hprinted⟩, hstopped ▸ houtcome, rfl, houtput.trans hprinted⟩

end Lox
