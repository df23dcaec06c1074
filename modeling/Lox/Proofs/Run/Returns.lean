import Lox.Proofs.Parse.Stacks
import Lox.Proofs.Run.Steps

/-!
Returns. The grammar has them inside function bodies only, and a declaration of a function does not run its
body. Main statement: whatever statement of an accepted text ends without stopping the run, ends normally,
so that the one after it is run.
-/

set_option autoImplicit false

namespace Lox

/-- Statements with no return but in the bodies of the functions that they declare. -/
inductive Node.NeverReturns : Node → Prop where
  | expression (n : Node) : NeverReturns (.expression n)
  | print (n : Node) : NeverReturns (.print n)
  | var (name n : Node) : NeverReturns (.var name n)
  | function (name : Node) (params : List Node) (body : Node) :
      NeverReturns (.function name params body)
  | block {ns : List Node} (hs : ∀ n ∈ ns, NeverReturns n) : NeverReturns (.block ns)
  | ifThen (c : Node) {n : Node} (h : NeverReturns n) : NeverReturns (.ifElse c n .missing)
  | ifElse (c : Node) {n e : Node} (h : NeverReturns n) (he : NeverReturns e) :
      NeverReturns (.ifElse c n e)
  | whileDo (c : Node) {n : Node} (h : NeverReturns n) : NeverReturns (.whileDo c n)

namespace Grammar

open Node

theorem Variable.neverReturns {ts : List Token} {n : Node} (h : Variable ts n) : n.NeverReturns := by
  cases h <;> exact .var _ _

theorem ExpressionStatement.neverReturns {ts : List Token} {n : Node}
    (h : ExpressionStatement ts n) : n.NeverReturns := by
  cases h
  exact .expression _

theorem Initializer.neverReturns {ts : List Token} {ns : List Node} (h : Initializer ts ns) :
    ∀ n ∈ ns, n.NeverReturns := by
  cases h with
  | none => exact nofun
  | var _ h => exact List.forall_mem_singleton.2 h.neverReturns
  | expression h => exact List.forall_mem_singleton.2 h.neverReturns

theorem Increment.neverReturns {ts : List Token} {ns : List Node} (h : Increment ts ns) :
    ∀ n ∈ ns, n.NeverReturns := by
  cases h with
  | none => exact nofun
  | some h => exact List.forall_mem_singleton.2 (.expression _)

mutual

theorem Statement.neverReturns {fn dangling : Bool} {ts : List Token} {n : Node} (hfn : fn = false) :
    Statement fn dangling ts n → n.NeverReturns
  | .expression h => h.neverReturns
  | .print _ _ _ => .print _
  | .bareReturn _ _ => nomatch hfn
  | .return _ _ _ => nomatch hfn
  | .block _ h _ => .block (h.neverReturns hfn)
  | .ifThen _ _ _ _ hn => .ifThen _ (hn.neverReturns hfn)
  | .ifElse _ _ _ _ hn _ hm => .ifElse _ (hn.neverReturns hfn) (hm.neverReturns hfn)
  | .whileDo _ _ _ _ hn => .whileDo _ (hn.neverReturns hfn)
  | .forLoop _ _ hi _ _ ha _ hn => by
    have hturn := NeverReturns.block
      (List.forall_mem_cons.2 ⟨hn.neverReturns hfn, ha.neverReturns⟩)
    refine .block (List.forall_mem_append.2 ⟨hi.neverReturns, ?_⟩)
    exact List.forall_mem_singleton.2 (.whileDo _ hturn)

theorem Declaration.neverReturns {fn : Bool} {ts : List Token} {n : Node} (hfn : fn = false) :
    Declaration fn ts n → n.NeverReturns
  | .var _ h => h.neverReturns
  | .function _ _ _ _ _ _ _ _ => .function _ _ _
  | .statement h => h.neverReturns hfn

theorem Declarations.neverReturns {fn : Bool} {ts : List Token} {ns : List Node} (hfn : fn = false) :
    Declarations fn ts ns → ∀ n ∈ ns, n.NeverReturns
  | .nil => nofun
  | .cons h hs => List.forall_mem_cons.2 ⟨h.neverReturns hfn, hs.neverReturns hfn⟩

end

theorem Program.neverReturns {ts : List Token} {p : List Node} (h : Program ts p) :
    ∀ n ∈ p, n.NeverReturns := by
  obtain ⟨h, _⟩ := h
  exact h.neverReturns rfl

end Grammar

theorem Accepted.neverReturns {frames : Nat} {text : String} (h : Accepted frames text) :
    ∀ n ∈ statementsOf frames text, n.NeverReturns :=
  (parse_sound h.endsOnce h.2).neverReturns

namespace Run

variable {α : Type}

/-- If the step ends without stopping the run, it ends normally. -/
def EndsNormally (x : Run Completion) : Prop := ∀ m c m', x m = (.ok c, m') → c = .normal

namespace EndsNormally

theorem pure : EndsNormally (pure .normal) := by
  rintro m c m' ⟨⟩
  rfl

theorem throw (stop : Stop) : EndsNormally (throw stop) := by
  rintro m c m' ⟨⟩

theorem bind {x : Run α} {f : α → Run Completion} (h : ∀ a, EndsNormally (f a)) :
    EndsNormally (x >>= f) := by
  intro m c m' hend
  rw [bind_apply] at hend
  cases hx : x m with
  | mk r n =>
    rw [hx] at hend
    cases r with
    | ok a => exact h a n c m' hend
    | error stop => cases hend

theorem ite {c : Prop} [Decidable c] {x y : Run Completion} (hx : EndsNormally x)
    (hy : EndsNormally y) : EndsNormally (if c then x else y) := by
  split
  · exact hx
  · exact hy

theorem inScope {x : Run Completion} (h : EndsNormally x) : EndsNormally (inScope x) := by
  intro m c m' hend
  unfold Run.inScope at hend
  cases hx : x m.pushScope with
  | mk r n =>
    rw [hx] at hend
    cases hend
    exact h _ _ _ hx

theorem caughtAt (place : Node) {x : Run Completion} (h : EndsNormally x) :
    EndsNormally (caughtAt place x) := by
  intro m c m' hend
  unfold Run.caughtAt at hend
  split at hend
  · cases hend
  · exact h _ _ _ hend

/-- After a step that ends normally the next one follows. -/
theorem andThen {x y : Run Completion} (hx : EndsNormally x) (hy : EndsNormally y) :
    EndsNormally (x >>= fun
      | .normal => y
      | .returned v => return .returned v) := by
  intro m c m' hend
  rw [bind_apply] at hend
  cases hr : x m with
  | mk r n =>
    rw [hr] at hend
    cases r with
    | error stop => cases hend
    | ok a =>
      obtain rfl : a = .normal := hx m a n hr
      exact hy n c m' hend

theorem sequence {statement : Node → Run Completion} {ns : List Node}
    (h : ∀ n ∈ ns, EndsNormally (statement n)) : EndsNormally (sequence statement ns) := by
  induction ns with
  | nil => exact pure
  | cons n ns ih =>
    obtain ⟨hn, hns⟩ := List.forall_mem_cons.1 h
    exact andThen hn (ih hns)

theorem loop (condition : Run Value) {body : Run Completion} (h : EndsNormally body) (turns : Nat) :
    EndsNormally (loop condition body turns) := by
  induction turns with
  | zero => exact throw .unfinished
  | succ turns ih => exact bind fun _ => ite (andThen h ih) pure

end EndsNormally

theorem endsNormally_execute {n : Node} (h : n.NeverReturns) (s : Settings) (frames : Nat) :
    EndsNormally (execute s frames n) := by
  induction h generalizing frames with
  | expression n =>
    cases frames with
    | zero => exact .throw .exhausted
    | succ frames => exact .bind fun _ => .pure
  | print n =>
    cases frames with
    | zero => exact .throw .exhausted
    | succ frames => exact .bind fun _ => .bind fun _ => .pure
  | var name n =>
    cases frames with
    | zero => exact .throw .exhausted
    | succ frames =>
      rw [execute_var]
      exact .bind fun _ => .bind fun _ => .bind fun _ => .bind fun _ => .pure
  | function name params body =>
    cases frames with
    | zero => exact .throw .exhausted
    | succ frames => exact .bind fun _ => .bind fun _ => .bind fun _ => .bind fun _ => .pure
  | block _ ih =>
    match frames with
    | 0 => exact .throw .exhausted
    | 1 => exact .inScope (.throw .exhausted)
    | frames + 2 => exact .inScope (.sequence fun n hn => ih n hn frames)
  | ifThen c _ ih =>
    cases frames with
    | zero => exact .throw .exhausted
    | succ frames =>
      rw [execute_ifElse]
      exact .bind fun _ => .bind fun _ => .ite (ih frames) .pure
  | @ifElse c n e _ _ ih ihe =>
    cases frames with
    | zero => exact .throw .exhausted
    | succ frames =>
      have hbranch : EndsNormally (branchOf? s frames e) := by
        cases e with
        | missing => exact .pure
        | _ => exact ihe frames
      rw [execute_ifElse]
      exact .bind fun _ => .bind fun _ => .ite (ih frames) hbranch
  | whileDo c _ ih =>
    cases frames with
    | zero => exact .throw .exhausted
    | succ frames => exact .loop _ (ih frames) s.turns

theorem endsNormally_topLevel {n : Node} (h : n.NeverReturns) (s : Settings) (frames : Nat) :
    EndsNormally (topLevel s frames n) :=
  .caughtAt _ (endsNormally_execute h s frames)

end Run

end Lox
