import Lox.Proofs.Parse.Reports
import Lox.Proofs.Run.Programs
import Lox.Proofs.Run.Returns

/-!
The statements of a program itself. Main statement: a return outside all functions is reported by the
parse, so in an accepted text there is none, and a run of it goes on from each statement to the next
unless one of them stops it.
-/

set_option autoImplicit false

namespace Lox

namespace Run

/-- Statements in order. Nothing but a stop keeps one of them from being run. -/
def straight (statement : Node → Run Completion) (ns : List Node) : Run Unit :=
  ns.forM fun n => do
    let _ ← statement n

theorem straight_cons (statement : Node → Run Completion) (n : Node) (ns : List Node) :
    straight statement (n :: ns) = (do
      let _ ← statement n
      straight statement ns) := by
  simp [straight]

/-- Statements that end normally are run to the last. -/
theorem sequence_eq_straight {statement : Node → Run Completion} {ns : List Node}
    (h : ∀ n ∈ ns, EndsNormally (statement n)) :
    sequence statement ns = (do
      straight statement ns
      return .normal) := by
  induction ns with
  | nil => rfl
  | cons n ns ih =>
    obtain ⟨hn, hns⟩ := List.forall_mem_cons.1 h
    rw [straight_cons, sequence]
    funext m
    simp only [bind_apply]
    cases hx : statement n m with
    | mk r m' =>
      cases r with
      | error stop => rfl
      | ok c =>
        obtain rfl : c = .normal := hn m c m' hx
        simp only [ih hns, bind_apply]

theorem interpret_eq_straight {p : Program} (h : ∀ n ∈ p, n.NeverReturns) (s : Settings)
    (frames : Nat) : interpret s frames p = (do
      note s 1 ("interpret " ++ toString p.length ++ " statements")
      straight (topLevel s frames) p
      note s 1 "interpret finished") := by
  rw [interpret, sequence_eq_straight fun n hn => endsNormally_topLevel (h n hn) s frames]
  simp

end Run

theorem Program.neverReturns_of_ok {frames : Nat} {text : String} {p : Program}
    (h : Program.ofSource frames text = .ok p) : ∀ n ∈ p, n.NeverReturns := by
  obtain ⟨hs, hp, rfl⟩ := Program.clean_of_ok h
  exact Accepted.neverReturns ⟨hs, hp⟩

/-- A return of a parse's statements is inside the body of a function, or its keyword is reported,
whatever else is. So in an accepted text no statement of the program itself ends in a return, from any
machine, and a run of the program runs all of them in order unless one stops it. -/
theorem returns_stay_in_functions (frames : Nat) :
    (∀ tokens, ∀ n ∈ (parse frames tokens).statements, ∀ keyword, n.OpenReturn keyword →
      ∃ t, keyword = .token t ∧ ∃ d ∈ (parse frames tokens).diagnostics,
        d = .at t .strayReturn ∧ d.complaint.message = "Can't return from top-level code.") ∧
    ∀ text p, Program.ofSource frames text = .ok p → ∀ s frames',
      (∀ n ∈ p, ∀ m v m', Run.execute s frames' n m ≠ (.ok (.returned v), m') ∧
        Run.topLevel s frames' n m ≠ (.ok (.returned v), m')) ∧
      Run.interpret s frames' p = (do
        Run.note s 1 ("interpret " ++ toString p.length ++ " statements")
        Run.straight (Run.topLevel s frames') p
        Run.note s 1 "interpret finished") := by
  refine ⟨fun tokens n hn keyword ho => ?_, fun text p h s frames' => ?_⟩
  · obtain ⟨t, rfl, ht⟩ := parse_openReturn frames tokens hn ho
    exact ⟨t, rfl, _, ht, rfl, rfl⟩
  · have hp := Program.neverReturns_of_ok h
    refine ⟨fun n hn m v m' => ⟨fun he => ?_, fun he => ?_⟩, Run.interpret_eq_straight hp s frames'⟩
    · exact nomatch Run.endsNormally_execute (hp n hn) s frames' m _ m' he
    · exact nomatch Run.endsNormally_topLevel (hp n hn) s frames' m _ m' he

/-- A return outside all functions, in a branch. -/
def strayTokens : List Token :=
  [.ifWord, .leftParen, .trueWord, .rightParen, .returnWord, .semicolon, .eof].map
    fun k => ⟨k, .null, .null, 1⟩

/-- A program with a return, which is inside a function. -/
def returningText : String := "fun f() \x7b return 1; \x7d print f();"

theorem returns_stay_in_functions_branch :
    (∃ n ∈ (parse 20 strayTokens).statements,
      n.OpenReturn (.token ⟨.returnWord, .null, .null, 1⟩) ∧
      ∃ t, t.kind = .returnWord ∧ ∃ d ∈ (parse 20 strayTokens).diagnostics,
        d = .at t .strayReturn) ∧
    ∃ p, Program.ofSource 20 returningText = .ok p ∧ p.length = 2 ∧
      ∀ n ∈ p, ∀ m v m', Run.topLevel ⟨0, 1⟩ 20 n m ≠ (.ok (.returned v), m') := by
  obtain ⟨hparse, hrun⟩ := returns_stay_in_functions 20
  refine ⟨⟨_, List.mem_singleton_self _, ?_, ?_⟩, _, rfl, rfl, fun n hn m v m' => ?_⟩
  · exact .child (List.mem_cons_of_mem _ List.mem_cons_self) (.here _ _)
  · obtain ⟨t, ht, d, hd, h, -⟩ := hparse strayTokens _ (List.mem_singleton_self _) _
      (.child (List.mem_cons_of_mem _ List.mem_cons_self) (.here _ _))
    obtain rfl := Node.token.inj ht
    exact ⟨_, rfl, d, hd, h⟩
  · exact ((hrun returningText _ rfl ⟨0, 1⟩ 20).1 n hn m v m').2

end Lox
