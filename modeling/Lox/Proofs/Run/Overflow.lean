import Lox.Proofs.Run.Frames
import Lox.Proofs.Run.Halting

/-!
Runs that are out of frames. A step overflows only where it makes a call that does, and that goes on down
to a call for which there are no frames. Main statement: a program that runs out of frames stops with one
overflow, which is at the innermost function call that is open, and leaves all as it was at that moment but
for the environment, which is the one before.
-/

set_option autoImplicit false

namespace Lox

namespace Call

/-- There are not the frames that the call begins with. -/
def IsSpent (c : Call) : Prop :=
  match c.task with
  | .invoke _ _ => c.frames < 2
  | _ => c.frames = 0

theorem IsSpent.halts {c : Call} (h : c.IsSpent) (s : Settings) :
    c.Halts s .exhausted c.machine := by
  refine ⟨c.machine.environment, ?_⟩
  obtain ⟨frames, task, m⟩ := c
  cases task with
  | invoke closure vs =>
    match frames, h with
    | 0, _ => rfl
    | 1, _ => rfl
  | _ =>
    obtain rfl : frames = 0 := h
    rfl

end Call

namespace Run

variable {α β : Type} {s : Settings} {m : Machine}

/-- A step stops the run for want of frames. -/
def Overflows (x : Run α) (m : Machine) : Prop := ∃ stop, (x m).1 = .error stop ∧ stop.IsOverflow

/-- A step that there are always enough frames for. -/
def Frugal (x : Run α) : Prop := ∀ m, ¬ Overflows x m

theorem Overflows.bind {x : Run α} {f : α → Run β} (h : Overflows (x >>= f) m) :
    Overflows x m ∨ ∃ v a, x m = (.ok v, a) ∧ Overflows (f v) a := by
  obtain ⟨stop, he, hs⟩ := h
  rw [bind_apply] at he
  cases hx : x m with
  | mk r a =>
    rw [hx] at he
    cases r with
    | error stop' => exact .inl ⟨stop, by rw [hx]; exact congrArg Except.error (Except.error.inj he), hs⟩
    | ok v => exact .inr ⟨v, a, rfl, stop, he, hs⟩

theorem Overflows.map_iff {f : α → β} {x : Run α} : Overflows (f <$> x) m ↔ Overflows x m := by
  unfold Overflows
  rw [map_eq_pure_bind, bind_apply]
  rcases x m with ⟨_ | v, b⟩
  · constructor <;> rintro ⟨e, ⟨⟩, hs⟩ <;> exact ⟨_, rfl, hs⟩
  · constructor <;> rintro ⟨e, ⟨⟩, hs⟩

theorem Overflows.caughtAt {place : Node} {x : Run α} (h : Overflows (caughtAt place x) m) :
    Overflows x m := by
  obtain ⟨stop, he, hs⟩ := h
  unfold Run.caughtAt at he
  split at he
  next hx => exact ⟨.exhausted, by rw [hx], .exhausted⟩
  next => exact ⟨stop, he, hs⟩

theorem Overflows.collect {value : Node → Run Value} {done : Array Value} {ns : List Node}
    (h : Overflows (collect value done ns) m) : ∃ before n after vs a, ns = before ++ n :: after ∧
      collect value done before m = (.ok vs, a) ∧ Overflows (value n) a := by
  induction ns generalizing done m with
  | nil => obtain ⟨_, ⟨⟩, -⟩ := h
  | cons n ns ih =>
    rcases h.bind with h | ⟨v, a, hv, h⟩
    · exact ⟨[], n, ns, _, m, rfl, rfl, h⟩
    · obtain ⟨before, n', after, vs, b, rfl, hb, h⟩ := ih h
      exact ⟨n :: before, n', after, vs, b, rfl, by rw [Run.collect, bind_apply, hv]; exact hb, h⟩

theorem Overflows.sequence {statement : Node → Run Completion} {ns : List Node}
    (h : Overflows (sequence statement ns) m) : ∃ before n after a, ns = before ++ n :: after ∧
      sequence statement before m = (.ok .normal, a) ∧ Overflows (statement n) a := by
  induction ns generalizing m with
  | nil => obtain ⟨_, ⟨⟩, -⟩ := h
  | cons n ns ih =>
    rcases h.bind with h | ⟨c, a, hc, h⟩
    · exact ⟨[], n, ns, m, rfl, rfl, h⟩
    · cases c with
      | returned v => obtain ⟨_, ⟨⟩, -⟩ := h
      | normal =>
        obtain ⟨before, n', after, b, rfl, hb, h⟩ := ih h
        exact ⟨n :: before, n', after, b, rfl, by rw [Run.sequence, bind_apply, hc]; exact hb, h⟩

/-- A loop that has come round some times overflows at its condition or its body, this time or later. -/
theorem Overflows.loop {condition : Run Value} {body : Run Completion} {k left : Nat} {a : Machine}
    (hk : Turned condition body k m a) (h : Overflows (loop condition body left) a) :
    ∃ k' < k + left, ∃ b, Turned condition body k' m b ∧ (Overflows condition b ∨
      ∃ v c, condition b = (.ok v, c) ∧ v.isTruthy = true ∧ Overflows body c) := by
  induction left generalizing k a with
  | zero => obtain ⟨_, ⟨⟩, ⟨⟩⟩ := h
  | succ left ih =>
    have hlt : k < k + (left + 1) := Nat.lt_add_of_pos_right (Nat.succ_pos left)
    rcases h.bind with h | ⟨v, b, hv, h⟩
    · exact ⟨k, hlt, a, hk, .inl h⟩
    · split at h
      next ht =>
        rcases h.bind with h | ⟨c, d, hc, h⟩
        · exact ⟨k, hlt, a, hk, .inr ⟨v, b, hv, ht, h⟩⟩
        · cases c with
          | returned v => obtain ⟨_, ⟨⟩, -⟩ := h
          | normal =>
            obtain ⟨k', hk', hrest⟩ := ih (hk.more hv ht hc) h
            exact ⟨k', by omega, hrest⟩
      next => obtain ⟨_, ⟨⟩, -⟩ := h

namespace Frugal

theorem pure (a : α) : Frugal (pure a : Run α) := by rintro m ⟨_, ⟨⟩, -⟩

theorem throw {stop : Stop} (h : ¬ stop.IsOverflow) : Frugal (throw stop : Run α) := by
  rintro m ⟨_, ⟨⟩, hs⟩
  exact h hs

theorem malformed {what : Malformed} (h : what ≠ .noPlace .stackOverflow) :
    Frugal (MonadExcept.throw (.malformed what) : Run α) :=
  throw fun hs => by cases hs; exact h rfl

theorem fail {f : Fault} (h : f ≠ .stackOverflow) (t : Token) : Frugal (fail t f : Run α) :=
  throw fun hs => by cases hs; exact h rfl

theorem failAt {f : Fault} (h : f ≠ .stackOverflow) (place : Node) :
    Frugal (failAt place f : Run α) := by
  cases place with
  | token t => exact fail h t
  | _ => exact malformed fun he => h (Malformed.noPlace.inj he)

theorem bind {x : Run α} {f : α → Run β} (hx : Frugal x) (hf : ∀ v, Frugal (f v)) :
    Frugal (x >>= f) := by
  intro m h
  rcases h.bind with h | ⟨v, a, -, h⟩
  · exact hx m h
  · exact hf v a h

theorem get : Frugal (MonadState.get : Run Machine) := by rintro m ⟨_, ⟨⟩, -⟩

theorem modify (f : Machine → Machine) : Frugal (modify f : Run PUnit) := by rintro m ⟨_, ⟨⟩, -⟩

theorem note (s : Settings) (level : Nat) (line : String) : Frugal (note s level line) := by
  rintro m ⟨_, he, -⟩
  rw [note_apply] at he
  cases he

theorem token (n : Node) : Frugal (token n) := by
  cases n with
  | token t => exact pure t
  | _ => exact malformed nofun

theorem name (t : Token) : Frugal (name t) := by
  unfold Run.name
  split
  · exact pure _
  · exact malformed nofun

theorem lookup (t : Token) : Frugal (lookup t) := by
  refine bind (name t) fun n => bind get fun m => ?_
  split
  · exact pure _
  · exact fail (by nofun) t

theorem assign (t : Token) (v : Value) : Frugal (assign t v) := by
  refine bind (name t) fun n => bind get fun m => ?_
  split
  · exact modify _
  · exact fail (by nofun) t

theorem define (t : Token) (v : Value) : Frugal (define t v) :=
  bind (name t) fun _ => modify _

theorem enclose (e : Environment) : Frugal (enclose e) := by rintro m ⟨_, ⟨⟩, -⟩

theorem readClock : Frugal readClock := by rintro m ⟨_, ⟨⟩, -⟩

theorem blockOf (n : Node) : Frugal (blockOf n) := by
  cases n with
  | block ns => exact pure ns
  | _ => exact malformed nofun

theorem bindParams (params : List Node) (vs : List Value) : Frugal (bindParams params vs) := by
  induction params generalizing vs with
  | nil => cases vs <;> exact pure ()
  | cons param params ih =>
    cases vs with
    | nil => exact pure ()
    | cons v vs => exact bind (token param) fun t => bind (define t v) fun _ => ih vs

theorem inEnvironment (e : Environment) {x : Run α} (h : Frugal x) :
    Frugal (inEnvironment e x) := fun m => h { m with environment := e }

theorem operated (operator : Token) {r : Except Fault Value} (h : r ≠ .error .stackOverflow) :
    Frugal (operated operator r) := by
  cases r with
  | ok v => exact pure v
  | error f => exact fail (fun hf => h (congrArg Except.error hf)) operator

end Frugal

end Run

namespace Value

theorem literal_ne_stackOverflow (t : Token) : literal t ≠ .error .stackOverflow := by
  unfold literal
  split <;> nofun

theorem unary_ne_stackOverflow (t : Token) (v : Value) : unary t v ≠ .error .stackOverflow := by
  unfold unary
  split <;> nofun

theorem binary_ne_stackOverflow (t : Token) (a b : Value) :
    binary t a b ≠ .error .stackOverflow := by
  unfold binary arithmetic
  split <;> (try split) <;> (try split) <;> nofun

end Value

namespace Call

/-- A call stops the run for want of frames. -/
def Overflows (s : Settings) (c : Call) : Prop := Run.Overflows (c.task.run s c.frames) c.machine

end Call

namespace Run

variable {s : Settings} {frames : Nat} {m : Machine}

theorem blockOf_eq_ok {n : Node} {ns : List Node} {a : Machine}
    (h : blockOf n m = (.ok ns, a)) : n = .block ns ∧ m = a := by
  cases n with
  | block ms =>
    obtain ⟨hns, ha⟩ := Prod.mk.inj h
    exact ⟨congrArg Node.block (Except.ok.inj hns), ha⟩
  | _ => cases h

/-- An expression that overflows makes a call that does. -/
theorem Overflows.evaluate {n : Node} (h : Overflows (evaluate s (frames + 1) n) m) :
    ∃ d, Calls s ⟨frames + 1, .evaluate n, m⟩ d ∧ d.Overflows s := by
  cases n with
  | literal t =>
    exact absurd h (Frugal.bind (.token t) (fun t => .operated t (Value.literal_ne_stackOverflow t)) m)
  | grouping n => exact ⟨_, .grouping, map_iff.2 h⟩
  | «variable» name => exact absurd h (Frugal.bind (.token name) .lookup m)
  | assign name n =>
    rcases h.bind with h | ⟨v, a, -, h⟩
    · exact ⟨_, .assigned, map_iff.2 h⟩
    · exact absurd h (Frugal.bind (.token name) (fun t => .bind (.assign t v) fun _ => .pure v) a)
  | unary operator n =>
    rcases h.bind with h | ⟨v, a, -, h⟩
    · exact ⟨_, .operand, map_iff.2 h⟩
    · exact absurd h (Frugal.bind (.token operator)
        (fun t => .operated t (Value.unary_ne_stackOverflow t v)) a)
  | logical l operator r =>
    rcases h.bind with h | ⟨v, a, hv, h⟩
    · exact ⟨_, .logicalLeft, map_iff.2 h⟩
    · cases operator with
      | token t =>
        replace h : Overflows (if v.isTruthy = isOr t then pure v else Run.evaluate s frames r) a := h
        split at h
        next => exact absurd h (Frugal.pure v a)
        next hne => exact ⟨_, .logicalRight hv hne, map_iff.2 h⟩
      | _ => obtain ⟨_, ⟨⟩, ⟨⟩⟩ := h
  | binary l operator r =>
    rcases h.bind with h | ⟨v, a, hv, h⟩
    · exact ⟨_, .binaryLeft, map_iff.2 h⟩
    rcases h.bind with h | ⟨w, b, -, h⟩
    · exact ⟨_, .binaryRight hv, map_iff.2 h⟩
    · exact absurd h (Frugal.bind (.token operator)
        (fun t => .operated t (Value.binary_ne_stackOverflow t v w)) b)
  | call callee paren ns =>
    rcases h.bind with h | ⟨f, a, hf, h⟩
    · exact ⟨_, .callee, map_iff.2 h⟩
    rcases h.bind with h | ⟨vs, b, hvs, h⟩
    · exact ⟨_, .arguments hf, h⟩
    · exact ⟨_, .apply hf hvs, map_iff.2 h⟩
  | _ => obtain ⟨_, ⟨⟩, ⟨⟩⟩ := h

theorem Overflows.apply {f : Value} {vs : List Value} {paren : Node}
    (h : Overflows (apply s (frames + 1) f vs paren) m) :
    ∃ d, Calls s ⟨frames + 1, .apply f vs paren, m⟩ d ∧ d.Overflows s := by
  cases f with
  | function closure =>
    rw [apply_function] at h
    split at h
    next => exact absurd h (Frugal.failAt (by nofun) paren m)
    next hn =>
      rcases h.bind with h | ⟨u, a, ha, h⟩
      · exact absurd h (Frugal.note s 3 _ m)
      · obtain rfl : (note s 3 (callLine closure vs) m).2 = a := congrArg Prod.snd ha
        exact ⟨_, .invoke (Decidable.of_not_not hn), map_iff.2 h.caughtAt⟩
  | builtin name =>
    rw [apply_builtin] at h
    split at h
    next => exact absurd h (Frugal.failAt (by nofun) paren m)
    next => exact absurd h (Frugal.bind (.note s 3 _) (fun _ => .readClock) m)
  | _ => exact absurd h (Frugal.failAt (by nofun) paren m)

theorem Overflows.invoke {closure : Closure} {vs : List Value}
    (h : Overflows (invoke s (frames + 2) closure vs) m) :
    ∃ d, Calls s ⟨frames + 2, .invoke closure vs, m⟩ d ∧ d.Overflows s := by
  rcases h.bind with h | ⟨inside, a, ha, h⟩
  · exact absurd h (Frugal.enclose _ m)
  rcases h.bind with h | ⟨u, b, hb, h⟩
  · exact absurd h (Frugal.inEnvironment inside (.bindParams _ vs) a)
  rcases h.bind with h | ⟨ns, c, hc, h⟩
  · exact absurd h (Frugal.blockOf _ b)
  rcases h.bind with h | ⟨r, d, -, h⟩
  · obtain ⟨hbody, rfl⟩ := blockOf_eq_ok hc
    refine ⟨_, .body hbody ?_, map_iff.2 h⟩
    rw [bind_apply, ha]
    dsimp only
    rw [bind_apply, hb]
    rfl
  · cases r with
    | normal => exact absurd h (Frugal.pure _ d)
    | returned v => exact absurd h (Frugal.pure v d)

theorem Overflows.execute {n : Node} (h : Overflows (execute s (frames + 1) n) m) :
    ∃ d, Calls s ⟨frames + 1, .execute n, m⟩ d ∧ d.Overflows s := by
  cases n with
  | expression n =>
    rcases h.bind with h | ⟨v, a, -, h⟩
    · exact ⟨_, .discarded, map_iff.2 h⟩
    · exact absurd h (Frugal.pure _ a)
  | print n =>
    rcases h.bind with h | ⟨v, a, -, h⟩
    · exact ⟨_, .printed, map_iff.2 h⟩
    · exact absurd h (Frugal.bind (.modify _) (fun _ => .pure _) a)
  | var name n =>
    rw [execute_var] at h
    rcases h.bind with h | ⟨v, a, -, h⟩
    · cases n with
      | missing => exact absurd h (Frugal.pure _ m)
      | _ => exact ⟨_, .initializer nofun, map_iff.2 h⟩
    · exact absurd h (Frugal.bind (.token name) (fun t => .bind (.define t v) fun _ =>
        .bind (.note s 2 _) fun _ => .pure _) a)
  | block ns => exact ⟨_, .block, map_iff.2 h⟩
  | ifElse c n e =>
    rw [execute_ifElse] at h
    rcases h.bind with h | ⟨v, a, hv, h⟩
    · exact ⟨_, .ifCondition, map_iff.2 h⟩
    rcases h.bind with h | ⟨u, b, hb, h⟩
    · exact absurd h (Frugal.note s 3 _ a)
    have hb : b = (note s 3 (branchLine v) a).2 := (congrArg Prod.snd hb).symm
    split at h
    next ht =>
      subst hb
      exact ⟨_, .thenBranch hv ht, map_iff.2 h⟩
    next hf =>
      subst hb
      cases e with
      | missing => exact absurd h (Frugal.pure _ _)
      | _ => exact ⟨_, .elseBranch hv (Bool.eq_false_iff.2 hf) nofun, map_iff.2 h⟩
  | whileDo c n =>
    obtain ⟨k, hk, a, hturns, h | ⟨v, b, hv, ht, h⟩⟩ := Overflows.loop .none h
    · exact ⟨_, .condition (Nat.zero_add s.turns ▸ hk) hturns, map_iff.2 h⟩
    · exact ⟨_, .turn (Nat.zero_add s.turns ▸ hk) hturns hv ht, map_iff.2 h⟩
  | function name params body =>
    exact absurd h (Frugal.bind .get (fun a => .bind (.token name) fun t => .bind (.define t _) fun _ =>
      .bind (.note s 2 _) fun _ => .pure _) m)
  | ret keyword n =>
    rw [execute_ret] at h
    rcases h.bind with h | ⟨v, a, -, h⟩
    · cases n with
      | missing => exact absurd h (Frugal.pure _ m)
      | _ => exact ⟨_, .returned nofun, map_iff.2 h⟩
    · exact absurd h (Frugal.pure _ a)
  | _ => obtain ⟨_, ⟨⟩, ⟨⟩⟩ := h

/-- What a call makes has fewer frames. -/
theorem Calls.frames_lt {c d : Call} (h : Calls s c d) : d.frames < c.frames := by
  cases h <;> exact Nat.lt_add_of_pos_right (by decide)

end Run

namespace Call

variable {s : Settings}

/-- A call overflows because it is spent, or else because one does that it makes. -/
theorem Overflows.spent_or_calls {c : Call} (h : c.Overflows s) :
    c.IsSpent ∨ ∃ d, Run.Calls s c d ∧ d.Overflows s := by
  obtain ⟨_ | frames, task, m⟩ := c
  · cases task with
    | invoke => exact .inl Nat.two_pos
    | _ => exact .inl rfl
  · cases task with
    | evaluate n => exact .inr (Run.Overflows.evaluate (Run.Overflows.map_iff.1 h))
    | evaluateAll ns =>
      obtain ⟨before, n, after, vs, a, rfl, hb, hn⟩ := Run.Overflows.collect h
      exact .inr ⟨_, .argument hb, Run.Overflows.map_iff.2 hn⟩
    | apply f vs paren => exact .inr (Run.Overflows.apply (Run.Overflows.map_iff.1 h))
    | invoke closure vs =>
      cases frames with
      | zero => exact .inl Nat.one_lt_two
      | succ frames => exact .inr (Run.Overflows.invoke (Run.Overflows.map_iff.1 h))
    | executeAll ns =>
      obtain ⟨before, n, after, a, rfl, hb, hn⟩ :=
        Run.Overflows.sequence (Run.Overflows.map_iff.1 h)
      exact .inr ⟨_, .statement hb, Run.Overflows.map_iff.2 hn⟩
    | execute n => exact .inr (Run.Overflows.execute (Run.Overflows.map_iff.1 h))

end Call

namespace Run

variable {s : Settings} {frames : Nat} {p : Program} {m : Machine}

/-- Inside a call underway that overflows there is one that is spent. -/
theorem Underway.exists_spent {c : Call} {calls : List Call}
    (h : Underway s frames p m (c :: calls)) (hc : c.Overflows s) :
    ∃ d row, Underway s frames p m (d :: row) ∧ d.IsSpent := by
  rcases hc.spent_or_calls with hspent | ⟨d, hd, hover⟩
  · exact ⟨c, calls, h, hspent⟩
  · exact (h.call hd).exists_spent hover
termination_by c.frames
decreasing_by exact hd.frames_lt

theorem Overflows.interpret (h : Overflows (interpret s frames p) m) :
    ∃ c row, Underway s frames p m (c :: row) ∧ c.IsSpent := by
  rcases h.bind with h | ⟨u, a, ha, h⟩
  · exact absurd h (Frugal.note s 1 _ m)
  rcases h.bind with h | ⟨u, b, -, h⟩
  · obtain ⟨before, n, after, c, rfl, hb, h⟩ := h.sequence
    refine Underway.exists_spent (.statement rfl ?_) (Overflows.map_iff.2 h.caughtAt)
    rw [bind_apply, ha]
    exact hb
  · exact absurd h (Frugal.note s 1 _ b)

/-- The trees of the calls underway are those of programs, if the program's are and those of the functions
bound before. -/
theorem Underway.isProper {T : Token → Prop} (hT : ∀ t, T t → t.IsScanned) (hp : p.WellFormed T)
    (hm : m.store.IsProper T) {row : List Call} (h : Underway s frames p m row) :
    ∀ c ∈ row, c.IsProper T := by
  induction h with
  | @statement before after n m₁ hsplit hb =>
    rw [hsplit] at hp
    obtain ⟨hbefore, hrest⟩ := List.forall_mem_append.1 hp
    have hstarted : Meets T IsFinal (Completion.IsProper T) (do
        note s 1 ("interpret " ++ toString p.length ++ " statements")
        sequence (topLevel s frames) before) :=
      (Meets.note s 1 _).bind fun _ _ =>
        .sequence fun n hn => meets_topLevel hT s frames (hbefore n hn)
    have hbegun := (hstarted.ok hm hb).2
    rintro c hc
    obtain rfl := List.mem_singleton.1 hc
    exact ⟨hbegun, (List.forall_mem_cons.1 hrest).1⟩
  | call _ hd ih =>
    exact List.forall_mem_cons.2 ⟨hd.isProper hT (ih _ List.mem_cons_self), ih⟩

end Run

end Lox
