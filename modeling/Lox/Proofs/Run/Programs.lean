import Lox.Proofs.Run.Calls

/-!
Runs of source texts from the start. Main statement: a run is rejected just for what the scan or the
parse reports, and then leaves everything as it was; otherwise it ends well or with a documented fault,
and in none of its calls is there a value but nil, booleans, numbers, texts and functions.
-/

set_option autoImplicit false

namespace Lox

namespace Program

variable {frames : Nat} {text : String}

theorem ofSource_of_scan (h : (scan text).diagnostics ≠ []) : ofSource frames text =
    .error (.byScan (if (scan text).fatal then (scan text).diagnostics
      else (scan text).diagnostics ++ (parse frames (scan text).tokens).diagnostics)) := by
  cases hf : (scan text).fatal with
  | true => simp only [ofSource, hf, if_true]
  | false => simp only [ofSource, hf, Parsed.accept, if_pos h, Bool.false_eq_true, if_false]

theorem ofSource_of_clean (h : (scan text).diagnostics = []) :
    ofSource frames text = (parse frames (scan text).tokens).accept (scan text) := by
  have hf : ¬ (scan text).fatal = true := fun hf => diagnostics_ne_nil_of_fatal hf h
  simp only [ofSource, if_neg hf]

theorem ofSource_of_parse (hs : (scan text).diagnostics = [])
    (hp : (parse frames (scan text).tokens).diagnostics ≠ []) : ofSource frames text =
    .error (.byParse (parse frames (scan text).tokens).diagnostics) := by
  rw [ofSource_of_clean hs, Parsed.accept, if_neg (not_not_intro hs), if_pos hp]

theorem ofSource_of_none (hs : (scan text).diagnostics = [])
    (hp : (parse frames (scan text).tokens).diagnostics = []) :
    ofSource frames text = .ok (parse frames (scan text).tokens).statements := by
  rw [ofSource_of_clean hs, Parsed.accept, if_neg (not_not_intro hs), if_neg (not_not_intro hp)]

theorem clean_of_ok {p : Program} (h : ofSource frames text = .ok p) :
    (scan text).diagnostics = [] ∧ (parse frames (scan text).tokens).diagnostics = [] ∧
      p = (parse frames (scan text).tokens).statements := by
  by_cases hs : (scan text).diagnostics = []
  · by_cases hp : (parse frames (scan text).tokens).diagnostics = []
    · rw [ofSource_of_none hs hp] at h
      exact ⟨hs, hp, (Except.ok.inj h).symm⟩
    · rw [ofSource_of_parse hs hp] at h
      cases h
  · rw [ofSource_of_scan hs] at h
    cases h

/-- The program of an accepted text is well formed over any sort that its tokens are of. -/
theorem wellFormed_of_ok {T : Token → Prop} (hT : TokenSort T)
    (htokens : ∀ t ∈ (scan text).tokens, T t) {p : Program} (h : ofSource frames text = .ok p) :
    p.WellFormed T := by
  obtain ⟨hs, hp, rfl⟩ := clean_of_ok h
  have hf : (scan text).fatal = false :=
    Bool.eq_false_iff.2 fun hf => diagnostics_ne_nil_of_fatal hf hs
  exact Grammar.Program.wellFormed hT htokens (parse_sound (endsOnce_scan hf) hp)

theorem wellFormed_ofSource {p : Program} (h : ofSource frames text = .ok p) :
    (scan text).diagnostics = [] ∧ (parse frames (scan text).tokens).diagnostics = [] ∧
      p.WellFormed Token.IsScanned := by
  obtain ⟨hs, hp, -⟩ := clean_of_ok h
  exact ⟨hs, hp, wellFormed_of_ok tokenSort_isScanned (isScanned_scan text) h⟩

end Program

/-- The texts of the runtime errors that the language has. -/
inductive Fault.IsMessage : String → Prop where
  | undefinedVariable (name : String) : IsMessage ("Undefined variable '" ++ name ++ "'")
  | operandNoNumber : IsMessage "Operand must be a number"
  | operandsNoNumbers : IsMessage "Operands must be numbers"
  | operandsNotAlike : IsMessage "Operands must be two numbers or two strings"
  | notCallable : IsMessage "Can only call functions and classes"
  | wrongCount (expected given : Nat) (h : given ≠ expected) :
      IsMessage ("Expected " ++ toString expected ++ " arguments but got " ++ toString given)
  | stackOverflow : IsMessage "Stack overflow"

theorem Fault.IsDocumented.isMessage {f : Fault} (h : f.IsDocumented) : IsMessage f.message := by
  cases h with
  | undefinedVariable name => exact .undefinedVariable name
  | operandNoNumber => exact .operandNoNumber
  | operandsNoNumbers => exact .operandsNoNumbers
  | operandsNotAlike => exact .operandsNotAlike
  | notCallable => exact .notCallable
  | wrongCount h => exact .wrongCount _ _ h
  | stackOverflow => exact .stackOverflow

namespace Run

variable {T : Token → Prop}

/-- How a run of a program may stop: with a documented fault, or for want of turns. -/
inductive IsFinal : Stop → Prop where
  | failed {line : Int} {f : Fault} (h : f.IsDocumented) : IsFinal (.failed ⟨line, f⟩)
  | unfinished : IsFinal .unfinished

theorem meets_topLevel (hT : ∀ t, T t → t.IsScanned) (s : Settings) (frames : Nat) {n : Node}
    (hn : n.IsStatement T) :
    Meets T IsFinal (Completion.IsProper T) (topLevel s frames n) := by
  refine Confined.caughtAt ((allMeet hT s frames).execute n hn) (.failed .stackOverflow) ?_
  intro stop hstop hne
  cases hstop with
  | failed hf _ => exact .failed hf
  | exhausted => exact absurd rfl hne
  | unfinished => exact .unfinished

theorem meets_interpret (hT : ∀ t, T t → t.IsScanned) (s : Settings) (frames : Nat)
    {p : Program} (hp : p.WellFormed T) :
    Meets T IsFinal (fun _ => True) (interpret s frames p) :=
  (Meets.note s 1 _).bind fun _ _ =>
    (Meets.sequence fun n hn => meets_topLevel hT s frames (hp n hn)).bind fun _ _ =>
      Meets.note s 1 _

/-- The lines noted down before the first statement of an accepted text. -/
def stages (s : Settings) (frames : Nat) (text : String) : Run Unit := do
  note s 1 ("scanned " ++ toString (scan text).tokens.length ++ " tokens")
  note s 1 ("parsed " ++ toString (parse frames (scan text).tokens).statements.length ++
    " statements")

theorem source_of_ok {s : Settings} {frames : Nat} {text : String} {p : Program}
    (h : Program.ofSource frames text = .ok p) :
    source s frames text = (do
      stages s frames text
      return .ok (← interpret s frames p)) := by
  have hs := (Program.wellFormed_ofSource h).1
  have hf : ¬ (scan text).fatal = true := fun hf => diagnostics_ne_nil_of_fatal hf hs
  rw [Program.ofSource_of_clean hs] at h
  simp only [source, if_neg hf, h, stages, bind_assoc]

theorem note_eq (s : Settings) (level : Nat) (line : String) (m : Machine) :
    ∃ trace, note s level line m = (.ok (), { m with trace }) := by
  unfold note
  split
  · exact ⟨_, rfl⟩
  · exact ⟨m.trace, rfl⟩

theorem stages_eq (s : Settings) (frames : Nat) (text : String) (m : Machine) :
    ∃ trace, stages s frames text m = (.ok (), { m with trace }) := by
  obtain ⟨first, h⟩ := note_eq s 1 _ m
  obtain ⟨second, h'⟩ := note_eq s 1 _ { m with trace := first }
  exact ⟨second, by rw [stages, bind_apply, h]; exact h'⟩

theorem source_of_error {s : Settings} {frames : Nat} {text : String} {r : Rejection}
    (h : Program.ofSource frames text = .error r) (m : Machine) :
    ∃ trace, source s frames text m = (.ok (.error r), { m with trace }) := by
  obtain ⟨first, hfirst⟩ := note_eq s 1 ("scanned " ++ toString (scan text).tokens.length ++
    " tokens") m
  by_cases hf : (scan text).fatal = true
  · simp only [Program.ofSource, if_pos hf] at h
    obtain rfl := Except.error.inj h
    exact ⟨first, by simp only [source, bind_apply, hfirst, if_pos hf, pure_apply]⟩
  · obtain ⟨second, hsecond⟩ := note_eq s 1 ("parsed " ++
      toString (parse frames (scan text).tokens).statements.length ++ " statements")
      { m with trace := first }
    simp only [Program.ofSource, if_neg hf] at h
    exact ⟨second, by simp only [source, bind_apply, hfirst, if_neg hf, hsecond, h, pure_apply]⟩

/-- The calls of a run: those that a statement of the program makes once all before it are done. -/
inductive Reached (s : Settings) (frames : Nat) (text : String) (m : Machine) (c : Call) :
    Prop where
  | mk {before after : List Node} {n : Node} {m' : Machine}
      (h : Program.ofSource frames text = .ok (before ++ n :: after))
      (hb : (do
        stages s frames text
        note s 1 ("interpret " ++ toString (before ++ n :: after).length ++ " statements")
        sequence (topLevel s frames) before) m = (.ok .normal, m'))
      (hc : Relation.ReflTransGen (Calls s) ⟨frames, .execute n, m'⟩ c)

/-- What comes before a statement of an accepted text. -/
theorem meets_started (hT : ∀ t, T t → t.IsScanned) (s : Settings) (frames : Nat) (text : String)
    (line : String) {before : List Node} (hbefore : ∀ n ∈ before, n.IsStatement T) :
    Meets T IsFinal (Completion.IsProper T) (do
      stages s frames text
      note s 1 line
      sequence (topLevel s frames) before) := by
  have hstages : Meets T IsFinal (fun _ => True) (stages s frames text) :=
    (Meets.note s 1 _).bind fun _ _ => Meets.note s 1 _
  exact hstages.bind fun _ _ => (Meets.note s 1 _).bind fun _ _ =>
    .sequence fun n hn => meets_topLevel hT s frames (hbefore n hn)

theorem Reached.isProper {s : Settings} {frames : Nat} {text : String} {m : Machine} {c : Call}
    (h : Reached s frames text m c) (hm : m.store.IsProper Token.IsScanned) :
    c.IsProper Token.IsScanned := by
  obtain ⟨h, hb, hc⟩ := h
  obtain ⟨hbefore, hrest⟩ := List.forall_mem_append.1 (Program.wellFormed_ofSource h).2.2
  have hm' := ((meets_started (fun _ ht => ht) s frames text _ hbefore).ok hm hb).2
  exact isProper_of_calls (fun _ ht => ht) hc ⟨hm', (List.forall_mem_cons.1 hrest).1⟩

end Run

/-- The values there are to a program. -/
inductive Value.IsPlain : Value → Prop where
  | nil : IsPlain .nil
  | bool (b : Bool) : IsPlain (.bool b)
  | number (x : Float) : IsPlain (.number x)
  | text (s : String) : IsPlain (.text s)
  | function (f : Closure) : IsPlain (.function f)
  | builtin (name : String) : IsPlain (.builtin name)

theorem Value.IsProper.isPlain {T : Token → Prop} {v : Value} (h : v.IsProper T) : v.IsPlain := by
  cases v with
  | data j => exact absurd h id
  | _ => constructor

namespace Machine

theorem isProper_fresh {T : Token → Prop} (clock : Clock) : (fresh clock).store.IsProper T :=
  Store.isProper_set Store.Holds.single (v := .builtin Clock.builtinName) trivial _ _

theorem run_of_error {s : Settings} {frames : Nat} {text : String} {r : Rejection}
    (h : Program.ofSource frames text = .error r) (m : Machine) :
    ∃ trace, m.run s frames text = (.rejected r, { m with trace }) := by
  obtain ⟨trace, ht⟩ := Run.source_of_error (s := s) h m
  exact ⟨trace, by rw [run, ht]⟩

theorem run_of_ok {T : Token → Prop} (hT : ∀ t, T t → t.IsScanned) {s : Settings} {frames : Nat}
    {text : String} {p : Program} (h : Program.ofSource frames text = .ok p)
    (hp : p.WellFormed T) {m : Machine} (hm : m.store.IsProper T) :
    (m.run s frames text).2.store.IsProper T ∧ ((m.run s frames text).1 = .ok ∨
      ∃ stop, (m.run s frames text).1 = .stopped stop ∧ Run.IsFinal stop) := by
  have hsource : Run.Meets T Run.IsFinal (fun r => r = .ok ()) (Run.source s frames text) := by
    rw [Run.source_of_ok h]
    refine ((Run.Meets.note s 1 _).bind fun _ _ => .note s 1 _).bind fun _ _ => ?_
    exact (Run.meets_interpret hT s frames hp).bind fun _ _ => .pure rfl
  obtain ⟨hstore, hr⟩ := hsource m hm
  unfold run
  cases hx : Run.source s frames text m with
  | mk r m' =>
    rw [hx] at hstore hr
    cases r with
    | ok r =>
      obtain rfl : r = .ok () := hr
      exact ⟨hstore, .inl rfl⟩
    | error stop => exact ⟨hstore, .inr ⟨stop, rfl, hr⟩⟩

theorem run_eq_rejected_iff {s : Settings} {frames : Nat} {text : String} {r : Rejection}
    {m : Machine} (hm : m.store.IsProper Token.IsScanned) :
    (m.run s frames text).1 = .rejected r ↔ Program.ofSource frames text = .error r := by
  cases h : Program.ofSource frames text with
  | error r' =>
    obtain ⟨trace, ht⟩ := run_of_error (s := s) h m
    rw [ht]
    exact ⟨fun h => by cases h; rfl, fun h => by cases h; rfl⟩
  | ok p =>
    have hp := (Program.wellFormed_ofSource h).2.2
    refine ⟨fun hr => ?_, nofun⟩
    rcases (run_of_ok (fun _ ht => ht) h hp hm).2 with ho | ⟨stop, ho, _⟩
    · exact nomatch ho.symm.trans hr
    · exact nomatch ho.symm.trans hr

end Machine

namespace Program

variable {frames : Nat} {text : String} {ds : List Diagnostic}

theorem ofSource_byScan_iff : ofSource frames text = .error (.byScan ds) ↔
    (scan text).diagnostics ≠ [] ∧ ds = if (scan text).fatal then (scan text).diagnostics
      else (scan text).diagnostics ++ (parse frames (scan text).tokens).diagnostics := by
  constructor
  · intro h
    by_cases hs : (scan text).diagnostics = []
    · by_cases hp : (parse frames (scan text).tokens).diagnostics = []
      · exact nomatch (ofSource_of_none hs hp).symm.trans h
      · exact nomatch (ofSource_of_parse hs hp).symm.trans h
    · have he := (ofSource_of_scan hs).symm.trans h
      exact ⟨hs, (Rejection.byScan.inj (Except.error.inj he)).symm⟩
  · rintro ⟨hs, rfl⟩
    exact ofSource_of_scan hs

theorem ofSource_byParse_iff : ofSource frames text = .error (.byParse ds) ↔
    (scan text).diagnostics = [] ∧ (parse frames (scan text).tokens).diagnostics ≠ [] ∧
      ds = (parse frames (scan text).tokens).diagnostics := by
  constructor
  · intro h
    by_cases hs : (scan text).diagnostics = []
    · by_cases hp : (parse frames (scan text).tokens).diagnostics = []
      · exact nomatch (ofSource_of_none hs hp).symm.trans h
      · have he := (ofSource_of_parse hs hp).symm.trans h
        exact ⟨hs, hp, (Rejection.byParse.inj (Except.error.inj he)).symm⟩
    · exact nomatch (ofSource_of_scan hs).symm.trans h
  · rintro ⟨hs, hp, rfl⟩
    exact ofSource_of_parse hs hp

theorem mem_of_ofSource {r : Rejection} (h : ofSource frames text = .error r) {d : Diagnostic}
    (hd : d ∈ r.diagnostics) :
    d ∈ (scan text).diagnostics ++ (parse frames (scan text).tokens).diagnostics := by
  cases r with
  | byScan ds =>
    obtain ⟨-, rfl⟩ := ofSource_byScan_iff.1 h
    change d ∈ ite _ _ _ at hd
    split at hd
    · exact List.mem_append_left _ hd
    · exact hd
  | byParse ds =>
    obtain ⟨-, -, rfl⟩ := ofSource_byParse_iff.1 h
    exact List.mem_append_right _ hd

/-- What a parse reports is reported of the text, unless it is not parsed after a fatal scan. -/
theorem exists_ofSource_of_mem (hf : ¬ (scan text).fatal = true) {d : Diagnostic}
    (hd : d ∈ (parse frames (scan text).tokens).diagnostics) :
    ∃ r, ofSource frames text = .error r ∧ d ∈ r.diagnostics := by
  have hp : (parse frames (scan text).tokens).diagnostics ≠ [] := List.ne_nil_of_mem hd
  by_cases hs : (scan text).diagnostics = []
  · exact ⟨_, ofSource_of_parse hs hp, hd⟩
  · refine ⟨_, ofSource_of_scan hs, ?_⟩
    rw [if_neg hf]
    exact List.mem_append_right _ hd

end Program

/-- Every run of a text on a fresh machine: it is rejected just for the diagnostics of the scan, with
those of the parse after them unless the scan was fatal, or else for those of the parse, and then
nothing is printed and no scope changed; otherwise, if it ends, it ends well or with a runtime error
of the language. All values bound, passed, given or printed in its calls are plain. -/
theorem run_outcomes (s : Settings) (frames : Nat) (text : String) (clock : Clock) :
    (∀ ds, ((Machine.fresh clock).run s frames text).1 = .rejected (.byScan ds) ↔
      (scan text).diagnostics ≠ [] ∧
        ds = if (scan text).fatal then (scan text).diagnostics
          else (scan text).diagnostics ++ (parse frames (scan text).tokens).diagnostics) ∧
    (∀ ds, ((Machine.fresh clock).run s frames text).1 = .rejected (.byParse ds) ↔
      (scan text).diagnostics = [] ∧ (parse frames (scan text).tokens).diagnostics ≠ [] ∧
        ds = (parse frames (scan text).tokens).diagnostics) ∧
    (∀ r, ((Machine.fresh clock).run s frames text).1 = .rejected r →
      ((Machine.fresh clock).run s frames text).2.output = (Machine.fresh clock).output ∧
      ((Machine.fresh clock).run s frames text).2.store = (Machine.fresh clock).store ∧
      ((Machine.fresh clock).run s frames text).2.environment = (Machine.fresh clock).environment) ∧
    ((scan text).diagnostics = [] → (parse frames (scan text).tokens).diagnostics = [] →
      ((Machine.fresh clock).run s frames text).1 ≠ .stopped .unfinished →
      ((Machine.fresh clock).run s frames text).1 = .ok ∨
      ∃ e, ((Machine.fresh clock).run s frames text).1 = .stopped (.failed e) ∧
        Fault.IsMessage e.fault.message) ∧
    (∀ c, Run.Reached s frames text (Machine.fresh clock) c → ∀ v, c.Has s v → v.IsPlain) := by
  have hm : (Machine.fresh clock).store.IsProper Token.IsScanned := Machine.isProper_fresh clock
  refine ⟨fun ds => ?_, fun ds => ?_, fun r hr => ?_, fun hs hp hends => ?_, fun c hc v hv => ?_⟩
  · rw [Machine.run_eq_rejected_iff hm, Program.ofSource_byScan_iff]
  · rw [Machine.run_eq_rejected_iff hm, Program.ofSource_byParse_iff]
  · obtain ⟨trace, ht⟩ := Machine.run_of_error (s := s) ((Machine.run_eq_rejected_iff hm).1 hr) _
    rw [ht]
    exact ⟨rfl, rfl, rfl⟩
  · have hok := Program.ofSource_of_none hs hp
    have hwell := (Program.wellFormed_ofSource hok).2.2
    rcases (Machine.run_of_ok (s := s) (fun _ ht => ht) hok hwell hm).2 with ho | ⟨stop, ho, hstop⟩
    · exact .inl ho
    · cases hstop with
      | failed h => exact .inr ⟨_, ho, h.isMessage⟩
      | unfinished => exact absurd ho hends
  · exact (Run.isProper_has (fun _ ht => ht) (hc.isProper hm) hv).isPlain

/-- A program that prints and then stops for a name that nothing declares. -/
def undeclaredName : String := "print nil; print a;"

theorem run_outcomes_undeclaredName :
    let m := Machine.fresh (Clock.steady 0)
    ((scan undeclaredName).diagnostics = [] ∧
      (parse 40 (scan undeclaredName).tokens).diagnostics = [] ∧
      (m.run ⟨0, 1⟩ 40 undeclaredName).1 = .stopped (.failed ⟨1, .undefinedVariable (.text "a")⟩)) ∧
    ((m.run ⟨0, 1⟩ 40 undeclaredName).1 = .ok ∨
      ∃ e, (m.run ⟨0, 1⟩ 40 undeclaredName).1 = .stopped (.failed e) ∧
        Fault.IsMessage e.fault.message) := by
  intro m
  have hscan : (scan undeclaredName).diagnostics = [] := rfl
  have hparse : (parse 40 (scan undeclaredName).tokens).diagnostics = [] := rfl
  have hrun : (m.run ⟨0, 1⟩ 40 undeclaredName).1 =
      .stopped (.failed ⟨1, .undefinedVariable (.text "a")⟩) := rfl
  obtain ⟨-, -, -, hends, -⟩ := run_outcomes ⟨0, 1⟩ 40 undeclaredName (Clock.steady 0)
  refine ⟨⟨hscan, hparse, hrun⟩, hends hscan hparse ?_⟩
  rw [hrun]
  simp

end Lox
