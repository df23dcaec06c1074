import Lox.Proofs.Node.Likeness
import Lox.Proofs.Node.Records
import Lox.Proofs.Parse.Reports
import Lox.Proofs.Run.Programs
import Lox.Proofs.Scan.Lines

/-!
The lines that are reported. Main statement: the diagnostics of a text and the errors of its run are on
lines that the text has, those of the run on the line of a token, also where a condition was left out
or where a function fails long after its declaration. Only for a statement without a token there is no
line to tell.
-/

set_option autoImplicit false

namespace Lox

namespace Node

variable {T : Token → Prop}

theorem Over.of_has {n : Node} {t : Token} (hn : n.Over T) (h : n.Has t) : T t := by
  induction h with
  | token t =>
    cases hn with
    | token ht => exact ht
    | node hn _ => exact absurd rfl (hn t)
  | child hc _ ih =>
    cases hn with
    | token _ => exact nomatch hc
    | node _ hs => exact ih (hs _ hc)

theorem has_firstToken {ns : List Node} {t : Token} (h : firstToken ns = some t) :
    ∃ n ∈ ns, n.Has t := by
  induction ns using firstToken.induct with
  | case1 => simp [firstToken] at h
  | case2 u pending =>
    simp only [firstToken, Option.some.injEq] at h
    exact ⟨_, List.mem_cons_self, h ▸ .token u⟩
  | case3 n pending hn ih =>
    rw [firstToken] at h
    · obtain ⟨c, hc, ht⟩ := ih h
      rcases List.mem_append.1 hc with hc | hc
      · exact ⟨n, List.mem_cons_self, .child hc ht⟩
      · exact ⟨c, List.mem_cons_of_mem _ hc, ht⟩
    · exact hn

theorem not_has_of_firstToken {ns : List Node} (h : firstToken ns = none) :
    ∀ n ∈ ns, ∀ t, ¬ n.Has t := by
  induction ns using firstToken.induct with
  | case1 => simp
  | case2 u pending => simp [firstToken] at h
  | case3 n pending hn ih =>
    rw [firstToken] at h
    · have hall := List.forall_mem_append.1 (ih h)
      refine List.forall_mem_cons.2 ⟨fun t ht => ?_, hall.2⟩
      cases ht with
      | token => exact hn t rfl
      | child hc ht => exact hall.1 _ hc t ht
    · exact hn

theorem Has.head {n c : Node} {cs : List Node} {t : Token} (hn : n.children = c :: cs)
    (h : c.Has t) : n.Has t :=
  .child (by rw [hn]; exact List.mem_cons_self) h

theorem IsExpression.exists_has {n : Node} (h : n.IsExpression T) : ∃ t, n.Has t := by
  induction h with
  | literal _ _ => exact ⟨_, .head rfl (.token _)⟩
  | «variable» _ _ => exact ⟨_, .head rfl (.token _)⟩
  | assign _ _ _ _ => exact ⟨_, .head rfl (.token _)⟩
  | unary _ _ _ _ => exact ⟨_, .head rfl (.token _)⟩
  | grouping _ ih => exact ih.imp fun _ => .head rfl
  | logical _ _ _ _ ih _ => exact ih.imp fun _ => .head rfl
  | binary _ _ _ _ ih _ => exact ih.imp fun _ => .head rfl
  | call _ _ _ _ ih _ => exact ih.imp fun _ => .head rfl

theorem IsName.exists_has {n : Node} (h : n.IsName T) : ∃ t, n.Has t := by
  obtain ⟨_, _⟩ := h
  exact ⟨_, .token _⟩

/-- Only blocks can be statements without a token. -/
theorem IsStatement.exists_has {n : Node} (h : n.IsStatement T) (hb : ∀ ns, n ≠ .block ns) :
    ∃ t, n.Has t := by
  cases h with
  | expression h => exact h.exists_has.imp fun _ => .head rfl
  | print h => exact h.exists_has.imp fun _ => .head rfl
  | bareVar hn => exact hn.exists_has.imp fun _ => .head rfl
  | var hn _ => exact hn.exists_has.imp fun _ => .head rfl
  | block _ => exact absurd rfl (hb _)
  | ifThen hc _ => exact hc.exists_has.imp fun _ => .head rfl
  | ifElse hc _ _ => exact hc.exists_has.imp fun _ => .head rfl
  | whileDo hc _ => exact hc.exists_has.imp fun _ => .head rfl
  | function hn _ _ => exact hn.exists_has.imp fun _ => .head rfl
  | bareReturn _ _ => exact ⟨_, .head rfl (.token _)⟩
  | «return» _ _ _ => exact ⟨_, .head rfl (.token _)⟩

end Node

/-- A token as a scan gives it, on the line of a token of a text. -/
structure Token.IsOnLineOf (text : String) (t : Token) : Prop where
  scanned : t.IsScanned
  there : ∃ u ∈ (scan text).tokens, t.line = u.line

theorem tokenSort_isOnLineOf (text : String) : TokenSort (Token.IsOnLineOf text) where
  whenLeftOut h := ⟨tokenSort_isScanned.whenLeftOut h.scanned, h.there⟩

/-- The end mark of a parse is on a line that the text has, also if the scan gave none. -/
theorem lastOf_line (text : String) : 1 ≤ (Source.lastOf (scan text).tokens).line ∧
    (Source.lastOf (scan text).tokens).line ≤ lineCount text.toList := by
  have hlines := (lines_scan text).1
  unfold Source.lastOf
  split
  next t h => exact hlines t (List.mem_of_find?_eq_some h)
  next =>
    cases h : (scan text).tokens.getLast? with
    | none => simp [Token.endAt, lineCount]
    | some t => exact hlines t (List.mem_of_getLast? h)

theorem lines_parse (frames : Nat) (text : String) :
    ∀ d ∈ (parse frames (scan text).tokens).diagnostics,
      1 ≤ d.line ∧ d.line ≤ lineCount text.toList := by
  intro d hd
  obtain ⟨t, c, ht, rfl⟩ := parse_reports frames (lines_scan text).1 (lastOf_line text) d hd
  exact ht

namespace Run

variable {T : Token → Prop} {s : Settings} {frames : Nat} {text : String}

/-- A sequence stops where one of its statements does, all before it having ended normally. -/
theorem sequence_stops {statement : Node → Run Completion} {ns : List Node} {m m'' : Machine}
    {stop : Stop} (h : sequence statement ns m = (.error stop, m'')) :
    ∃ before n after m', ns = before ++ n :: after ∧
      sequence statement before m = (.ok .normal, m') ∧ statement n m' = (.error stop, m'') := by
  induction ns generalizing m with
  | nil => cases h
  | cons n ns ih =>
    rw [sequence, bind_apply] at h
    cases hn : statement n m with
    | mk r m' =>
      rw [hn] at h
      cases r with
      | error e => exact ⟨[], n, ns, m, rfl, rfl, hn.trans h⟩
      | ok c =>
        cases c with
        | returned v => cases h
        | normal =>
          obtain ⟨before, k, after, m₁, rfl, hbefore, hk⟩ := ih h
          refine ⟨n :: before, k, after, m₁, rfl, ?_, hk⟩
          rw [sequence, bind_apply, hn]
          exact hbefore

/-- The run of a text stops in a statement of the program, all before it being done. -/
inductive StopsIn (s : Settings) (frames : Nat) (text : String) (m : Machine) (stop : Stop)
    (n : Node) : Prop where
  | mk {before after : List Node} {m' m'' : Machine}
      (h : Program.ofSource frames text = .ok (before ++ n :: after))
      (hb : (do
        stages s frames text
        note s 1 ("interpret " ++ toString (before ++ n :: after).length ++ " statements")
        sequence (topLevel s frames) before) m = (.ok .normal, m'))
      (hn : topLevel s frames n m' = (.error stop, m''))

theorem stopsIn_of_run {m m'' : Machine} {stop : Stop}
    (h : m.run s frames text = (.stopped stop, m'')) : ∃ n, StopsIn s frames text m stop n := by
  cases hp : Program.ofSource frames text with
  | error r =>
    obtain ⟨trace, ht⟩ := Machine.run_of_error (s := s) hp m
    exact nomatch ht.symm.trans h
  | ok p =>
    obtain ⟨staged, hstages⟩ := stages_eq s frames text m
    obtain ⟨first, hfirst⟩ := note_eq s 1 ("interpret " ++ toString p.length ++ " statements")
      { m with trace := staged }
    have hseq : sequence (topLevel s frames) p { m with trace := first } = (.error stop, m'') := by
      simp only [Machine.run, source_of_ok hp, bind_apply, hstages, interpret, hfirst] at h
      cases hr : sequence (topLevel s frames) p { m with trace := first } with
      | mk r m' =>
        rw [hr] at h
        cases r with
        | error e =>
          obtain ⟨he, rfl⟩ := Prod.mk.inj h
          rw [Outcome.stopped.inj he]
        | ok c =>
          obtain ⟨last, hlast⟩ := note_eq s 1 "interpret finished" m'
          simp [hlast] at h
    obtain ⟨before, n, after, m', rfl, hbefore, hn⟩ := sequence_stops hseq
    refine ⟨n, .mk hp ?_ hn⟩
    simp only [bind_apply, hstages, hfirst, hbefore]

/-- Blocks of nothing but blocks can only run out of frames. -/
theorem exhausted_of_bare {n : Node} (hn : n.IsStatement T) (hbare : ∀ t, ¬ n.Has t) {frames : Nat}
    {m m' : Machine} {stop : Stop} (h : execute s frames n m = (.error stop, m')) :
    stop = .exhausted := by
  induction frames using Nat.strongRecOn generalizing n m m' with
  | ind frames ih =>
    by_cases hb : ∃ ns, n = .block ns
    · obtain ⟨ns, rfl⟩ := hb
      cases hn with
      | block hs =>
        match frames with
        | 0 => cases h; rfl
        | 1 => cases h; rfl
        | frames + 2 =>
          cases hseq : sequence (execute s frames) ns m.pushScope with
          | mk r m₁ =>
            have hr : execute s (frames + 2) (.block ns) m = (r, m₁.popScope) := by
              simp only [execute, executeAll, inScope, hseq]
            obtain rfl := congrArg Prod.fst (hr.symm.trans h)
            obtain ⟨before, c, after, m₂, rfl, -, hc⟩ := sequence_stops hseq
            have hmem : c ∈ before ++ c :: after := List.mem_append_right _ List.mem_cons_self
            exact ih frames (by omega) (hs c hmem) (fun t ht => hbare t (.child hmem ht)) hc
    · obtain ⟨t, ht⟩ := hn.exists_has fun ns hns => hb ⟨ns, hns⟩
      exact absurd ht (hbare t)

/-- A statement with a token stops at a token of its program, or for want of turns; one without stops
in an overflow only, and there is no line to tell. -/
theorem line_of_topLevel (hT : ∀ t, T t → t.IsScanned) {n : Node} (hn : n.IsStatement T)
    {m m'' : Machine} (hm : m.store.IsProper T) {e : RuntimeError}
    (h : topLevel s frames n m = (.error (.failed e), m'')) :
    ((∃ t, n.Has t) ∧ ∃ t, T t ∧ e.line = t.line) ∨ ((∀ t, ¬ n.Has t) ∧ e = ⟨0, .stackOverflow⟩) := by
  obtain ⟨-, hr⟩ := (allMeet hT s frames).execute n hn m hm
  unfold topLevel caughtAt at h
  cases hx : execute s frames n m with
  | mk r m' =>
    rw [hx] at h hr
    cases hlead : n.leadingToken with
    | none =>
      have hbare := Node.not_has_of_firstToken hlead n (List.mem_singleton_self n)
      refine .inr ⟨hbare, ?_⟩
      cases r with
      | ok c => cases h
      | error stop =>
        obtain rfl := exhausted_of_bare hn hbare hx
        rw [hlead] at h
        cases h
        rfl
    | some t =>
      obtain ⟨_, hself, ht⟩ := Node.has_firstToken hlead
      obtain rfl := List.mem_singleton.1 hself
      refine .inl ⟨⟨t, ht⟩, ?_⟩
      cases r with
      | ok c => cases h
      | error stop =>
        cases hr with
        | unfinished => cases h
        | failed hf hu =>
          cases h
          exact ⟨_, hu, rfl⟩
        | exhausted =>
          rw [hlead] at h
          cases h
          exact ⟨t, hn.over.of_has ht, rfl⟩

/-- On a machine with proper values the error of a run is at a token of the text's sort, or it is the
overflow of a statement without a token. -/
theorem StopsIn.line (hT : TokenSort T) (hscanned : ∀ t, T t → t.IsScanned)
    (htokens : ∀ t ∈ (scan text).tokens, T t) {m : Machine} (hm : m.store.IsProper T) {n : Node}
    {e : RuntimeError} (h : StopsIn s frames text m (.failed e) n) :
    ((∃ t, n.Has t) ∧ ∃ t, T t ∧ e.line = t.line) ∨ ((∀ t, ¬ n.Has t) ∧ e = ⟨0, .stackOverflow⟩) := by
  obtain ⟨hok, hb, hn⟩ := h
  obtain ⟨hbefore, hrest⟩ := List.forall_mem_append.1 (Program.wellFormed_of_ok hT htokens hok)
  have hm' := ((meets_started hscanned s frames text _ hbefore).ok hm hb).2
  exact line_of_topLevel hscanned (List.forall_mem_cons.1 hrest).1 hm' hn

end Run

/-- Every line that is reported of a text run on a fresh machine is one that the text has: those of the
diagnostics, and that of the error which the run stops with, which is the line of a token. Only if the
statement that the run stops in has no token at all, the error is a stack overflow on line 0. -/
theorem reported_lines (s : Settings) (frames : Nat) (text : String) (clock : Clock) :
    (∀ d ∈ (scan text).diagnostics ++ (parse frames (scan text).tokens).diagnostics,
      1 ≤ d.line ∧ d.line ≤ text.toList.count '\n' + 1) ∧
    (∀ r, ((Machine.fresh clock).run s frames text).1 = .rejected r → ∀ d ∈ r.diagnostics,
      1 ≤ d.line ∧ d.line ≤ text.toList.count '\n' + 1) ∧
    ∀ e, ((Machine.fresh clock).run s frames text).1 = .stopped (.failed e) →
      ∃ n, Run.StopsIn s frames text (Machine.fresh clock) (.failed e) n ∧
        (((∃ t, n.Has t) ∧ ∃ t ∈ (scan text).tokens, e.line = t.line ∧
            1 ≤ e.line ∧ e.line ≤ text.toList.count '\n' + 1) ∨
          ((∀ t, ¬ n.Has t) ∧ e = ⟨0, .stackOverflow⟩)) := by
  have hall : ∀ d ∈ (scan text).diagnostics ++ (parse frames (scan text).tokens).diagnostics,
      1 ≤ d.line ∧ d.line ≤ text.toList.count '\n' + 1 :=
    List.forall_mem_append.2 ⟨(lines_scan text).2, lines_parse frames text⟩
  refine ⟨hall, fun r hr d hd => hall d ?_, fun e he => ?_⟩
  · rw [Machine.run_eq_rejected_iff (Machine.isProper_fresh clock)] at hr
    exact Program.mem_of_ofSource hr hd
  · obtain ⟨n, hn⟩ := Run.stopsIn_of_run (Prod.ext he rfl)
    have htokens : ∀ t ∈ (scan text).tokens, t.IsOnLineOf text := fun t ht =>
      ⟨isScanned_scan text t ht, t, ht, rfl⟩
    refine ⟨n, hn, ?_⟩
    rcases hn.line (tokenSort_isOnLineOf text) (fun _ h => h.scanned) htokens
      (Machine.isProper_fresh clock) with ⟨hhas, t, ⟨-, u, hu, htu⟩, het⟩ | hnone
    · refine .inl ⟨hhas, u, hu, het.trans htu, ?_⟩
      rw [het, htu]
      exact (lines_scan text).1 u hu
    · exact .inr hnone

/-- The line of the error that a run stops with. -/
def Outcome.failureLine? : Outcome → Option Int
  | .stopped (.failed e) => some e.line
  | _ => none

theorem Outcome.exists_of_failureLine? {o : Outcome} {line : Int} (h : o.failureLine? = some line) :
    ∃ e, o = .stopped (.failed e) ∧ e.line = line := by
  unfold failureLine? at h
  split at h
  · exact ⟨_, rfl, Option.some.inj h⟩
  · cases h

/-- A function that fails on the second line when it is called on the fourth. -/
def lateFailure : String := "fun f() \x7b\n  return a;\n\x7d\nf();"

/-- A loop with its condition left out, and a character that no token has, on the second line. -/
def strayMark : String := "for (;;) nil;\n@"

theorem reported_lines_lateFailure :
    let m := Machine.fresh (Clock.steady 0)
    (∃ e, (m.run ⟨0, 1⟩ 40 lateFailure).1 = .stopped (.failed e) ∧ e.line = 2 ∧
      ∃ n, Run.StopsIn ⟨0, 1⟩ 40 lateFailure m (.failed e) n ∧ ∃ t, n.Has t) ∧
    ∃ r, (m.run ⟨0, 1⟩ 40 strayMark).1 = .rejected r ∧ r.diagnostics.map (·.line) = [2] ∧
      ∀ d ∈ r.diagnostics, 1 ≤ d.line ∧ d.line ≤ strayMark.toList.count '\n' + 1 := by
  intro m
  obtain ⟨-, -, hfailed⟩ := reported_lines ⟨0, 1⟩ 40 lateFailure (Clock.steady 0)
  obtain ⟨-, hrejected, -⟩ := reported_lines ⟨0, 1⟩ 40 strayMark (Clock.steady 0)
  have hline : (m.run ⟨0, 1⟩ 40 lateFailure).1.failureLine? = some 2 := by decide +kernel
  obtain ⟨e, he, hl⟩ := Outcome.exists_of_failureLine? hline
  refine ⟨⟨e, he, hl, ?_⟩, _, rfl, rfl, fun d hd => hrejected _ rfl d hd⟩
  obtain ⟨n, hn, ⟨hhas, -⟩ | ⟨-, rfl⟩⟩ := hfailed e he
  · exact ⟨n, hn, hhas⟩
  · cases hl

end Lox
