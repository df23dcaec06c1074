import Lox.Parse.Statement

/-!
How steps of a parse compose. Every step drops tokens from the front, adds diagnostics at the end
and leaves the function depth as it was. On top of that there are two ways to say what a step
accepts.

A step yields a language if, whenever it reports nothing, what it took is a phrase of the language.
A step reads a phrase if it takes exactly that phrase and reports nothing, or else runs out of frames.
-/

set_option autoImplicit false

namespace Lox.Parse

variable {α β : Type}

theorem bind_apply (x : Parse α) (f : α → Parse β) (p : Parser) :
    (x >>= f) p = match x p with
      | (.ok a, p) => f a p
      | (.error e, p) => (.error e, p) := by
  change ExceptT.bindCont f (x p).1 (x p).2 = _
  obtain ⟨r, p'⟩ := x p
  cases r <;> rfl

@[simp] theorem pure_apply (a : α) (p : Parser) : (pure a : Parse α) p = (.ok a, p) := rfl

@[simp] theorem get_apply (p : Parser) : (get : Parse Parser) p = (.ok p, p) := rfl

@[simp] theorem throw_apply (e : Abort) (p : Parser) :
    (throw e : Parse α) p = (.error e, p) := rfl

@[simp] theorem peek_apply (source : Source) (p : Parser) :
    peek source p = (.ok (p.pending.headD source.last), p) := rfl

@[simp] theorem atEnd_apply (p : Parser) : atEnd p = (.ok p.pending.isEmpty, p) := rfl

@[simp] theorem advance_apply (source : Source) (p : Parser) :
    advance source p =
      (.ok (p.pending.headD source.last), { p with pending := p.pending.tail }) := rfl

@[simp] theorem nextIs_apply (source : Source) (kind : Kind) (p : Parser) :
    nextIs source kind p = (.ok (decide ((p.pending.headD source.last).kind = kind)), p) := rfl

@[simp] theorem report_apply (t : Token) (c : Complaint) (p : Parser) :
    report t c p = (.ok (), p.report (.at t c)) := rfl

@[simp] theorem fail_apply (source : Source) (c : Complaint) (p : Parser) :
    (fail source c : Parse α) p =
      (.error .syntaxError, p.report (.at (p.pending.headD source.last) c)) := rfl

theorem accept?_apply (source : Source) (kinds : List Kind) (p : Parser) :
    accept? source kinds p =
      if kinds.contains (p.pending.headD source.last).kind then
        (.ok (some (p.pending.headD source.last)), { p with pending := p.pending.tail })
      else (.ok none, p) := by
  unfold accept?
  simp only [bind_apply, peek_apply]
  split <;> rfl

theorem expect_apply (source : Source) (kind : Kind) (c : Complaint) (p : Parser) :
    expect source kind c p =
      if (p.pending.headD source.last).kind = kind then
        (.ok (p.pending.headD source.last), { p with pending := p.pending.tail })
      else (.error .syntaxError, p.report (.at (p.pending.headD source.last) c)) := by
  unfold expect
  simp only [bind_apply, nextIs_apply, decide_eq_true_eq]
  split <;> rfl

theorem skip_suffix (before : Token) (ts : List Token) : Parser.skip before ts <:+ ts := by
  induction ts generalizing before with
  | nil => exact List.suffix_refl _
  | cons t rest ih =>
    rw [Parser.skip]
    split
    · exact List.suffix_refl _
    · exact (ih t).trans (List.suffix_cons t rest)

/-- What every step does to the parser, however it ends. -/
structure Advances (p p' : Parser) : Prop where
  pending : p'.pending <:+ p.pending
  diagnostics : p.diagnostics.toList <+: p'.diagnostics.toList
  functionDepth : p'.functionDepth = p.functionDepth

namespace Advances

theorem refl (p : Parser) : Advances p p := ⟨List.suffix_refl _, List.prefix_refl _, rfl⟩

theorem trans {a b c : Parser} (h : Advances a b) (h' : Advances b c) : Advances a c :=
  ⟨h'.pending.trans h.pending, h.diagnostics.trans h'.diagnostics,
    h'.functionDepth.trans h.functionDepth⟩

theorem length_le {p p' : Parser} (h : Advances p p') : p'.pending.length ≤ p.pending.length :=
  h.pending.length_le

theorem report (p : Parser) (d : Diagnostic) : Advances p (p.report d) :=
  ⟨List.suffix_refl _, by simp [Parser.report], rfl⟩

theorem drop {p : Parser} {rest : List Token} (h : rest <:+ p.pending) :
    Advances p { p with pending := rest } :=
  ⟨h, List.prefix_refl _, rfl⟩

/-- If the diagnostics are the same after two stretches, they are the same in between. -/
theorem squeeze {a b c : Parser} (h : Advances a b) (h' : Advances b c)
    (hd : c.diagnostics = a.diagnostics) :
    b.diagnostics = a.diagnostics ∧ c.diagnostics = b.diagnostics := by
  have hl := h'.diagnostics
  rw [hd] at hl
  have hb : b.diagnostics = a.diagnostics :=
    Array.toList_inj.1 (hl.eq_of_length_le h.diagnostics.length_le)
  exact ⟨hb, hd.trans hb.symm⟩

theorem report_ne (p : Parser) (d : Diagnostic) : (p.report d).diagnostics ≠ p.diagnostics := by
  intro h
  have hs := congrArg Array.size h
  simp [Parser.report] at hs

theorem synchronize (p : Parser) : Advances p p.synchronize := by
  unfold Parser.synchronize
  split
  next => exact .refl p
  next t rest h => exact .drop (h ▸ (skip_suffix t rest).trans (List.suffix_cons t rest))

end Advances

end Lox.Parse
