import Lox.Proofs.Run.Sessions

/-!
How a stop goes up through the calls underway. Main statement: what stops a call stops the one that made
it, and in the end the program, which leaves the machine of that moment but for the environment. Only an
overflow changes on the way: the first function call that it goes through gives it its place.
-/

set_option autoImplicit false

namespace Lox

/-- The stop of a step that is run at a place that catches overflows, if it is at one. -/
def Stop.caughtAt : Option Node → Stop → Stop
  | some place, .exhausted => Run.faultAt .stackOverflow place
  | _, stop => stop

/-- Once an overflow has its place, it keeps it. -/
theorem Stop.caughtAt_caughtAt (stop : Stop) (inner outer : Option Node) :
    (stop.caughtAt inner).caughtAt outer = stop.caughtAt (inner.or outer) := by
  cases inner with
  | none => rfl
  | some place =>
    cases stop with
    | exhausted => cases place <;> cases outer <;> rfl
    | _ => cases outer <;> rfl

namespace Call

/-- The closing parenthesis, where a call applies a value to arguments. -/
def paren? (c : Call) : Option Node :=
  match c.task with
  | .apply _ _ paren => some paren
  | _ => none

end Call

namespace Run

variable {α β : Type} {s : Settings} {m a m' : Machine} {stop : Stop}

/-- A step stops the run. It leaves such a machine but for the environment. -/
def Halts (x : Run α) (m : Machine) (stop : Stop) (m' : Machine) : Prop :=
  ∃ e, x m = (.error stop, { m' with environment := e })

namespace Halts

theorem first {x : Run α} (h : Halts x m stop m') (f : α → Run β) : Halts (x >>= f) m stop m' := by
  obtain ⟨e, hx⟩ := h
  exact ⟨e, by rw [bind_apply, hx]⟩

theorem second {x : Run α} {f : α → Run β} {v : α} (hx : x m = (.ok v, a))
    (h : Halts (f v) a stop m') : Halts (x >>= f) m stop m' := by
  obtain ⟨e, hf⟩ := h
  exact ⟨e, by rw [bind_apply, hx, ← hf]⟩

theorem map_iff {f : α → β} {x : Run α} : Halts (f <$> x) m stop m' ↔ Halts x m stop m' := by
  unfold Halts
  rw [map_eq_pure_bind, bind_apply]
  rcases x m with ⟨_ | v, b⟩
  · constructor <;> rintro ⟨e, ⟨⟩⟩ <;> exact ⟨_, rfl⟩
  · constructor <;> rintro ⟨e, ⟨⟩⟩

theorem inScope {x : Run α} (h : Halts x m.pushScope stop m') : Halts (inScope x) m stop m' := by
  obtain ⟨e, hx⟩ := h
  exact ⟨e.pop?.getD e, by rw [Run.inScope, hx]; rfl⟩

theorem inEnvironment {e : Environment} {x : Run α}
    (h : Halts x { m with environment := e } stop m') : Halts (inEnvironment e x) m stop m' := by
  obtain ⟨e', hx⟩ := h
  exact ⟨m.environment, by rw [Run.inEnvironment, hx]⟩

theorem caughtAt {x : Run α} (h : Halts x m stop m') (place : Node) :
    Halts (caughtAt place x) m (stop.caughtAt (some place)) m' := by
  obtain ⟨e, hx⟩ := h
  refine ⟨e, ?_⟩
  rw [Run.caughtAt, hx]
  cases stop <;> rfl

theorem collect {value : Node → Run Value} {before : List Node} {done : Array Value}
    {vs : List Value} {n : Node} (hb : collect value done before m = (.ok vs, a))
    (h : Halts (value n) a stop m') (after : List Node) :
    Halts (collect value done (before ++ n :: after)) m stop m' := by
  rw [collect_append]
  exact second hb (h.first _)

theorem sequence {statement : Node → Run Completion} {before : List Node} {n : Node}
    (hb : sequence statement before m = (.ok .normal, a)) (h : Halts (statement n) a stop m')
    (after : List Node) : Halts (sequence statement (before ++ n :: after)) m stop m' := by
  rw [sequence_append]
  exact second hb (h.first _)

end Halts

theorem note_apply (s : Settings) (level : Nat) (line : String) (m : Machine) :
    note s level line m = (.ok (), (note s level line m).2) := by
  unfold note
  split <;> rfl

/-- An invocation in two parts: first the scope with the parameters, then the body. -/
theorem invoke_of_block {closure : Closure} {ns : List Node} (hb : closure.body = .block ns)
    (s : Settings) (frames : Nat) (vs : List Value) :
    invoke s (frames + 2) closure vs = (do
      let inside ← (do
        let inside ← enclose closure.environment
        inEnvironment inside (bindParams closure.params vs)
        return inside)
      match ← inEnvironment inside (executeAll s frames ns) with
      | .returned v => return v
      | .normal => return .nil) := by
  rw [invoke, hb, bind_assoc]
  refine congrArg _ (funext fun inside => ?_)
  rw [bind_assoc]
  rfl

/-- The turns that a loop has come round count as done. -/
theorem Turned.loop {condition : Run Value} {body : Run Completion} {k : Nat}
    (h : Turned condition body k m a) (turns : Nat) :
    Run.loop condition body (k + turns) m = Run.loop condition body turns a := by
  induction h generalizing turns with
  | none => rw [Nat.zero_add]
  | more _ hc hv hb ih =>
    rw [Nat.add_assoc, Nat.add_comm 1 turns, ih (turns + 1), Run.loop, bind_apply, hc]
    dsimp only
    rw [if_pos hv, bind_apply, hb]

/-- What stops the run at a turn that comes stops the loop. -/
theorem Turned.halts {condition : Run Value} {body : Run Completion} {k turns : Nat}
    (h : Turned condition body k m a) (hk : k < turns)
    (ha : ∀ left, Halts (Run.loop condition body (left + 1)) a stop m') :
    Halts (Run.loop condition body turns) m stop m' := by
  obtain ⟨left, rfl⟩ := Nat.exists_eq_add_of_lt hk
  obtain ⟨e, he⟩ := ha left
  exact ⟨e, by rw [Nat.add_assoc, h.loop, he]⟩

end Run

namespace Call

/-- A call stops the run. It leaves such a machine but for the environment. -/
def Halts (s : Settings) (c : Call) (stop : Stop) (m' : Machine) : Prop :=
  Run.Halts (c.task.run s c.frames) c.machine stop m'

end Call

open Run

/-- What stops a call stops the one that made it. -/
theorem Run.Calls.halts {s : Settings} {c d : Call} (h : Calls s c d) {stop : Stop} {m' : Machine}
    (hd : d.Halts s stop m') : c.Halts s (stop.caughtAt c.paren?) m' := by
  cases h with
  | grouping => exact hd
  | assigned | operand | logicalLeft | binaryLeft | callee | discarded | printed =>
    exact Halts.map_iff.2 ((Halts.map_iff.1 hd).first _)
  | logicalRight hl hv =>
    refine Halts.map_iff.2 (.second hl (.second rfl ?_))
    rw [if_neg hv]
    exact Halts.map_iff.1 hd
  | binaryRight hl => exact Halts.map_iff.2 (.second hl ((Halts.map_iff.1 hd).first _))
  | arguments hf => exact Halts.map_iff.2 (.second hf (Halts.first hd _))
  | apply hf hvs => exact Halts.map_iff.2 (.second hf (.second hvs (Halts.map_iff.1 hd)))
  | argument hb => exact Halts.collect hb (Halts.map_iff.1 hd) _
  | @invoke frames _ closure vs paren hn =>
    refine Halts.map_iff.2 ?_
    dsimp only
    rw [apply_function, if_neg (fun h => h hn)]
    refine .second (note_apply s 3 _ _) ?_
    exact (Halts.map_iff.1 hd).caughtAt paren
  | @body frames m b closure vs inside ns hb hp =>
    refine Halts.map_iff.2 ?_
    have hd : Halts (executeAll s frames ns) { b with environment := inside } stop m' :=
      Halts.map_iff.1 hd
    dsimp only
    rw [invoke_of_block hb]
    exact .second hp (hd.inEnvironment.first _)
  | statement hb => exact Halts.map_iff.2 (.sequence hb (Halts.map_iff.1 hd) _)
  | initializer hn =>
    refine Halts.map_iff.2 ?_
    dsimp only
    rw [execute_var, valueOf?_of_ne hn]
    exact (Halts.map_iff.1 hd).first _
  | block => exact Halts.map_iff.2 (.inScope (Halts.map_iff.1 hd))
  | ifCondition =>
    refine Halts.map_iff.2 ?_
    dsimp only
    rw [execute_ifElse]
    exact (Halts.map_iff.1 hd).first _
  | thenBranch hc hv =>
    refine Halts.map_iff.2 ?_
    dsimp only
    rw [execute_ifElse]
    refine .second hc (.second (note_apply s 3 _ _) ?_)
    rw [if_pos hv]
    exact Halts.map_iff.1 hd
  | elseBranch hc hv he =>
    refine Halts.map_iff.2 ?_
    dsimp only
    rw [execute_ifElse]
    refine .second hc (.second (note_apply s 3 _ _) ?_)
    rw [if_neg (Bool.eq_false_iff.1 hv), branchOf?_of_ne he]
    exact Halts.map_iff.1 hd
  | condition hk hturns =>
    refine Halts.map_iff.2 (hturns.halts hk fun left => ?_)
    exact (Halts.map_iff.1 hd).first _
  | turn hk hturns hc hv =>
    refine Halts.map_iff.2 (hturns.halts hk fun left => .second hc ?_)
    rw [if_pos hv]
    exact (Halts.map_iff.1 hd).first _
  | returned hn =>
    refine Halts.map_iff.2 ?_
    dsimp only
    rw [execute_ret, valueOf?_of_ne hn]
    exact (Halts.map_iff.1 hd).first _

/-- What stops the innermost of the calls underway stops the program. An overflow is then at the first
function call among the others, or else at the statement. -/
theorem Run.Underway.halts {s : Settings} {frames : Nat} {p : Program} {m : Machine} {row : List Call}
    (h : Underway s frames p m row) {c : Call} {calls : List Call} (hrow : row = c :: calls)
    {stop : Stop} {m' : Machine} (hc : c.Halts s stop m') :
    ∃ n m₁, n ∈ p ∧ row.getLast? = some ⟨frames, .execute n, m₁⟩ ∧
      Halts (interpret s frames p) m (stop.caughtAt ((calls.findSome? Call.paren?).or
        (some (.token (n.leadingToken.getD (.endAt 0)))))) m' := by
  induction h generalizing c calls stop with
  | @statement before after n m₁ hp hb =>
    obtain ⟨rfl, rfl⟩ := List.cons.inj hrow
    refine ⟨n, m₁, by simp [hp], rfl, ?_⟩
    have hstatement : Halts (topLevel s frames n) m₁ _ m' := (Halts.map_iff.1 hc).caughtAt _
    rw [bind_apply, note_apply] at hb
    refine .second (note_apply s 1 _ m) (Halts.first ?_ _)
    rw [hp]
    rw [hp] at hb
    exact .sequence hb hstatement after
  | @call c d calls _ hd ih =>
    obtain ⟨rfl, rfl⟩ := List.cons.inj hrow
    obtain ⟨n, m₁, hn, hlast, hhalts⟩ := ih rfl (hd.halts hc)
    refine ⟨n, m₁, hn, hlast, ?_⟩
    rw [Stop.caughtAt_caughtAt, ← Option.or_assoc] at hhalts
    have hfirst : (c :: calls).findSome? Call.paren? =
        c.paren?.or (calls.findSome? Call.paren?) := by
      rw [List.findSome?_cons]
      cases c.paren? <;> rfl
    rwa [hfirst]

end Lox
