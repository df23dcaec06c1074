import Lox.Proofs.Parse.Mirrors
import Lox.Proofs.Run.Splitting
import Lox.Proofs.Scan.Layout

/-!
Programs in another layout. Main statement: whatever gaps and comments keep the lexemes of a program
apart, it has the same syntax errors and the same tree, and it runs in the same way, but for the lines.
-/

set_option autoImplicit false

namespace Lox

theorem Token.sameText_refl (t : Token) : t.SameText t := ⟨rfl, rfl, rfl⟩

/-- Outcomes that differ at most in the lines of the syntax errors or of the failure. -/
inductive Outcome.SameText : Outcome → Outcome → Prop where
  | rejected {ds ds' : List Diagnostic} (h : List.Forall₂ Diagnostic.SameText ds ds') :
      SameText (.rejected (.byParse ds)) (.rejected (.byParse ds'))
  | run {o o' : Outcome} (h : o.Like Token.SameText o') : SameText o o'

theorem Ends.outcome {T : Token → Token → Prop} {P : Completion → Completion → Prop}
    {r r' : Except Stop Completion} (h : Ends T P r r') :
    (Outcome.ofResult r).Like T (.ofResult r') := by
  cases h with
  | ok _ => exact .ok
  | error h => exact .stopped h

namespace Machine

variable {s : Settings} {frames : Nat} {text laid : String}

/-- Runs in the same scopes, of tokens with the same texts. -/
abbrev Alongside : Machine → Machine → Prop :=
  (Simulation.sameScopes Token.SameText id).Machines ()

theorem alongside_refl (m : Machine) (before after : Array String) :
    Alongside { m with trace := before } { m with trace := after } :=
  ⟨.refl fun t _ => t.sameText_refl, Pairing.environments_same.2 rfl, rfl, rfl⟩

/-- Accepted texts with the same tree run alike. -/
theorem run_alongside (h : Accepted frames text) (h' : Accepted frames laid)
    (hp : List.Forall₂ (Node.Like Token.SameText) (statementsOf frames text)
      (statementsOf frames laid)) (s : Settings) (m : Machine) :
    (m.run s frames text).1.Like Token.SameText (m.run s frames laid).1 ∧
      (m.run s frames text).2.Alongside (m.run s frames laid).2 := by
  obtain ⟨before, after, hrun⟩ := run_of_accepted h s m
  obtain ⟨before', after', hrun'⟩ := run_of_accepted h' s m
  obtain ⟨⟨⟩, -, hm, hends⟩ := Run.Simulates.sequence
    (S := Simulation.sameScopes Token.SameText id) (w := ())
    (fun _ => Run.simulates_topLevel (Token.sameText_refl _) s frames) hp () _ _ trivial
    (m.alongside_refl before before')
  rw [hrun, hrun']
  exact ⟨hends.outcome, hm.store, hm.environment, hm.output, hm.clock⟩

end Machine

/-- Whatever separators keep the lexemes of a text apart, a scan without diagnostics finds the same kinds,
lexemes and literals, without diagnostics again. So the text has the same syntax errors up to their lines
and the same tree up to the lines of its tokens, and from every machine it runs in the same way: with the
same output, and to the same end or to the same fault, though on another line. It leaves the same names
bound in every scope, to values that differ in lines alone. -/
theorem layout_does_not_matter {text laid : String} (h : (scan text).diagnostics = [])
    (hl : (scan text).IsLaidOut laid) :
    ((scan laid).diagnostics = [] ∧ (scan laid).fatal = false ∧
      List.Forall₂ Token.SameText (scan text).tokens (scan laid).tokens) ∧
    ∀ frames,
      (List.Forall₂ Diagnostic.SameText (parse frames (scan text).tokens).diagnostics
          (parse frames (scan laid).tokens).diagnostics ∧
        List.Forall₂ (Node.Like Token.SameText) (statementsOf frames text)
          (statementsOf frames laid)) ∧
      ∀ (s : Settings) (m : Machine),
        let given := m.run s frames text
        let other := m.run s frames laid
        given.1.SameText other.1 ∧
        other.2.output = given.2.output ∧
        other.2.environment = given.2.environment ∧
        other.2.clock = given.2.clock ∧
        given.2.store.Alike Token.SameText other.2.store ∧
        other.2.shownGlobals = given.2.shownGlobals := by
  have hscan := hl.scan_eq h
  refine ⟨hscan, fun frames => ?_⟩
  obtain ⟨hstatements, hdiagnostics⟩ := parse_mirrors frames hscan.2.2
  refine ⟨⟨hdiagnostics, hstatements⟩, fun s m => ?_⟩
  by_cases hp : (parse frames (scan text).tokens).diagnostics = []
  · have hp' : (parse frames (scan laid).tokens).diagnostics = [] :=
      List.forall₂_nil_left_iff.1 (hp ▸ hdiagnostics)
    obtain ⟨houtcome, hm⟩ := Machine.run_alongside ⟨h, hp⟩ ⟨hscan.1, hp'⟩ hstatements s m
    exact ⟨.run houtcome, hm.output.symm, Pairing.environments_same.1 hm.environment, hm.clock,
      hm.store, Machine.shownGlobals_eq id hm⟩
  · have hp' : (parse frames (scan laid).tokens).diagnostics ≠ [] := fun hnone =>
      hp (List.forall₂_nil_right_iff.1 (hnone ▸ hdiagnostics))
    obtain ⟨trace, hrun⟩ := Machine.run_of_error (s := s) (Program.ofSource_of_parse h hp) m
    obtain ⟨trace', hrun'⟩ := Machine.run_of_error (s := s)
      (Program.ofSource_of_parse hscan.1 hp') m
    have hm := m.alongside_refl trace trace'
    dsimp only
    rw [hrun, hrun']
    exact ⟨.rejected hdiagnostics, rfl, rfl, rfl, hm.store, rfl⟩

/-- A text that fails, and its lexemes with a comment, a tab and line ends between them. -/
def closeText : String := "print a;"

def wideText : String := " print //b\n\ta\n;\n"

theorem isLaidOut_wideText : (scan closeText).IsLaidOut wideText := by
  have hwords : (scan closeText).tokens.dropLast.map Token.characters =
      [['p', 'r', 'i', 'n', 't'], ['a'], [';']] := rfl
  have hcomment : Lexical.Separator [' ', '/', '/', 'b', '\n', '\t'] :=
    .gap (by decide) (@Lexical.Blank.comment ['b'] ['\t'] (by decide) (.gap (by decide) .nil))
  have hline : Lexical.Separator ['\n'] := .gap (by decide) .nil
  refine ⟨[' '], "print //b\n\ta\n;\n".toList, rfl, .gap (by decide) .nil, ?_⟩
  rw [hwords]
  exact .cons hcomment (.cons hline (.cons hline .nil))

theorem layout_does_not_matter_wideText :
    let m := Machine.bare (Clock.steady 0)
    let given := m.run ⟨0, 1⟩ 40 closeText
    let other := m.run ⟨0, 1⟩ 40 wideText
    ((scan closeText).diagnostics = [] ∧ (scan closeText).IsLaidOut wideText) ∧
    given.1 = .stopped (.failed ⟨1, .undefinedVariable (.text "a")⟩) ∧
    other.1 = .stopped (.failed ⟨2, .undefinedVariable (.text "a")⟩) ∧
    given.1.SameText other.1 := by
  intro m given other
  have hclean : (scan closeText).diagnostics = [] := rfl
  refine ⟨⟨hclean, isLaidOut_wideText⟩, rfl, rfl, ?_⟩
  exact (((layout_does_not_matter hclean isLaidOut_wideText).2 40).2 ⟨0, 1⟩ m).1

end Lox
