import Lox.Proofs.Run.Pairing
import Lox.Proofs.Run.Simulation

/-!
The scopes that a call can get at: those of its environment or of the functions passed to it, and those of
functions bound in scopes that it can get at. Main statement: two calls that agree on these scopes run
side by side. Scopes that are new in the one stand for those new in the other, and scopes that neither can
get at stay as they are.
-/

set_option autoImplicit false

namespace Lox

/-- The scopes that are in a list, or in the environment of a function bound in such a scope. -/
inductive Store.Reaches (st : Store) (roots : List ScopeId) : ScopeId → Prop where
  | root {id : ScopeId} (h : id ∈ roots) : Reaches st roots id
  | closure {id other : ScopeId} {name : Name} {f : Closure} (h : Reaches st roots id)
      (hf : (name, .function f) ∈ (st.scope id).bindings) (ho : other ∈ f.environment.scopes) :
      Reaches st roots other

/-- The scopes of a function's environment. -/
def Value.scopes : Value → List ScopeId
  | .function f => f.environment.scopes
  | _ => []

theorem Store.scope_set_of_ne (st : Store) {id other : ScopeId} (name : Name) (v : Value)
    (h : other ≠ id) : (st.set id name v).scope other = st.scope other := by
  rcases Nat.lt_or_ge id st.fresh with hid | hid
  · rw [scope_set st id other name v hid, if_neg h]
  · rw [set_of_fresh_le hid]

theorem Store.scope_of_fresh_le {st : Store} {id : ScopeId} (h : st.fresh ≤ id) :
    st.scope id = .empty := by
  have hnone : st.scopes[id]? = none := Array.getElem?_eq_none h
  simp [scope, Array.getD_eq_getD_getElem?, hnone]

namespace Call

/-- Where a call gets at scopes from: its environment, and in a function's call the function and the
arguments instead. -/
def roots (c : Call) : List ScopeId :=
  match c.task with
  | .apply f vs _ => (f :: vs).flatMap Value.scopes
  | .invoke f vs => (.function f :: vs).flatMap Value.scopes
  | _ => c.machine.environment.scopes

/-- The scopes that a call can get at. -/
abbrev Reaches (c : Call) : ScopeId → Prop := c.machine.store.Reaches c.roots

/-- The same task with the same scopes to get at, on machines that may differ in all other scopes. -/
structure Agrees (c c' : Call) : Prop where
  frames : c'.frames = c.frames
  task : c'.task = c.task
  roots : c'.roots = c.roots
  scopes : ∀ id, c.Reaches id → c'.machine.store.scope id = c.machine.store.scope id
  clock : c'.machine.clock = c.machine.clock

/-- All scopes that a call can get at are there. -/
def Grounded (c : Call) : Prop := ∀ id, c.Reaches id → id < c.machine.store.fresh

/-- Which scope after one call stands for which after another: a scope that the call could get at for
itself, and the new ones for each other in the order in which they were opened. -/
def Renames (c c' : Call) (i i' : ScopeId) : Prop :=
  (c.Reaches i ∧ i' = i) ∨
    ∃ k, i = c.machine.store.fresh + k ∧ i' = c'.machine.store.fresh + k

variable {c c' : Call}

theorem Agrees.refl (c : Call) : c.Agrees c := ⟨rfl, rfl, rfl, fun _ _ => rfl, rfl⟩

theorem Agrees.reaches (h : c.Agrees c') {id : ScopeId} (hid : c.Reaches id) : c'.Reaches id := by
  induction hid with
  | root hroot => exact .root (h.roots ▸ hroot)
  | closure hid hf ho ih =>
    rw [← h.scopes _ hid] at hf
    exact .closure ih hf ho

theorem Agrees.ne_new (h : c.Agrees c') (hc : c.Grounded) (hc' : c'.Grounded) {i : ScopeId}
    (hi : c.Reaches i) (k : Nat) :
    i ≠ c.machine.store.fresh + k ∧ i ≠ c'.machine.store.fresh + k :=
  ⟨Nat.ne_of_lt (Nat.lt_add_right k (hc i hi)),
    Nat.ne_of_lt (Nat.lt_add_right k (hc' i (h.reaches hi)))⟩

/-- No scope stands for two. -/
def Agrees.pairing (h : c.Agrees c') (hc : c.Grounded) (hc' : c'.Grounded) : Pairing where
  pairs := c.Renames c'
  eq_iff := by
    rintro i i' j j' (⟨hi, rfl⟩ | ⟨k, rfl, rfl⟩) (⟨hj, rfl⟩ | ⟨l, rfl, rfl⟩)
    · exact Iff.rfl
    · obtain ⟨hne, hne'⟩ := h.ne_new hc hc' hi l
      exact iff_of_false hne hne'
    · obtain ⟨hne, hne'⟩ := h.ne_new hc hc' hj k
      exact iff_of_false hne.symm hne'.symm
    · rw [Nat.add_left_cancel_iff, Nat.add_left_cancel_iff]

/-- Values alike up to the scopes of functions, which stand for each other. -/
abbrev LikeValues (c c' : Call) : Value → Value → Prop :=
  Value.Like Eq fun e e' => List.Forall₂ (c.Renames c') e.scopes e'.scopes

/-- Stores as two calls may have them underway: so many new scopes in each, all scopes that stand for each
other alike, and those that the calls cannot get at as they were. -/
structure Stores (h : c.Agrees c') (hc : c.Grounded) (hc' : c'.Grounded) (st st' : Store) :
    Prop where
  new : ∃ k, st.fresh = c.machine.store.fresh + k ∧ st'.fresh = c'.machine.store.fresh + k
  reached : (h.pairing hc hc').Matches (c.LikeValues c') st st'
  others : ∀ id < c.machine.store.fresh, ¬ c.Reaches id →
    st.scope id = c.machine.store.scope id

section

variable {h : c.Agrees c'} {hc : c.Grounded} {hc' : c'.Grounded} {st st' : Store}

theorem Stores.set (hs : Stores h hc hc' st st') {id id' : ScopeId} (hid : c.Renames c' id id')
    (name : Name) {v v' : Value} (hv : c.LikeValues c' v v') :
    Stores h hc hc' (st.set id name v) (st'.set id' name v') := by
  refine ⟨by simpa using hs.new, hs.reached.set hid name hv, fun other hlt hother => ?_⟩
  have hne : other ≠ id := by
    rintro rfl
    rcases hid with ⟨hid, -⟩ | ⟨k, rfl, -⟩
    · exact hother hid
    · exact absurd hlt (Nat.not_lt.2 (Nat.le_add_right _ _))
  rw [Store.scope_set_of_ne st name v hne]
  exact hs.others other hlt hother

theorem Stores.addScope (hs : Stores h hc hc' st st') :
    c.Renames c' st.fresh st'.fresh ∧ Stores h hc hc' st.addScope st'.addScope := by
  obtain ⟨k, hk, hk'⟩ := hs.new
  have hfresh : c.Renames c' st.fresh st'.fresh := .inr ⟨k, hk, hk'⟩
  refine ⟨hfresh, ?_, hs.reached.addScope fun hi => ?_, fun id hlt hid => ?_⟩
  · exact ⟨k + 1, by rw [Store.fresh_addScope, hk]; rfl, by rw [Store.fresh_addScope, hk']; rfl⟩
  · exact (h.pairing hc hc').eq_iff hi hfresh
  · rw [Store.scope_addScope_eq]
    exact hs.others id hlt hid

end

/-- Two calls that agree, side by side. The new scopes of one stand for those of the other whatever
happens, so there is but one world. -/
def Agrees.simulation (h : c.Agrees c') (hc : c.Grounded) (hc' : c'.Grounded) : Simulation where
  World := Unit
  grows _ _ := True
  tokens := Eq
  environments _ := (h.pairing hc hc').Environments
  stores _ := Stores h hc hc'
  outputs o o' := ∃ out, o = c.machine.output ++ out ∧ o' = c'.machine.output ++ out
  refl _ := trivial
  trans _ _ := trivial
  sameText := by
    rintro t _ rfl
    exact ⟨rfl, rfl, rfl⟩
  mono _ he := he
  printed := by
    rintro _ _ line ⟨out, rfl, rfl⟩
    exact ⟨out ++ line ++ "\n", by simp only [String.append_assoc], by simp only [String.append_assoc]⟩
  get n hs he := hs.reached.get? he n
  define n hs he hv := by
    cases he with
    | cons hid _ => exact hs.set hid n hv
  assign {_ st st' e e' v v'} n hs he hv := by
    have hfind := hs.reached.find? he n
    unfold Environment.assign?
    generalize e.find? st n = o, e'.find? st' n = o' at hfind
    cases hfind with
    | none => exact .none
    | some hid => exact .some (hs.set hid n hv)
  enclose hs he := by
    obtain ⟨hfresh, hadd⟩ := hs.addScope
    exact ⟨(), trivial, hadd, .cons hfresh he⟩

theorem Agrees.environments {e : Environment} (he : ∀ id ∈ e.scopes, c.Reaches id) :
    List.Forall₂ (c.Renames c') e.scopes e.scopes :=
  List.forall₂_same.2 fun id hid => .inl ⟨he id hid, rfl⟩

theorem Agrees.likeValues {v : Value} (hv : ∀ id ∈ v.scopes, c.Reaches id) :
    c.LikeValues c' v v := by
  refine .refl fun f hf => ⟨fun _ _ => rfl, ?_⟩
  subst hf
  exact environments hv

/-- At first no scope is new, and those that the calls can get at are the same. -/
theorem Agrees.stores (h : c.Agrees c') (hc : c.Grounded) (hc' : c'.Grounded) :
    Stores h hc hc' c.machine.store c'.machine.store := by
  refine ⟨⟨0, rfl, rfl⟩, ⟨fun hi => ?_, fun hi => ?_⟩, fun _ _ _ => rfl⟩
  · rcases hi with ⟨hi, rfl⟩ | ⟨k, rfl, rfl⟩
    · exact iff_of_true (hc _ hi) (hc' _ (h.reaches hi))
    · have hle := Nat.not_lt.2 (Nat.le_add_right c.machine.store.fresh k)
      have hle' := Nat.not_lt.2 (Nat.le_add_right c'.machine.store.fresh k)
      exact iff_of_false hle hle'
  · rcases hi with ⟨hi, rfl⟩ | ⟨k, rfl, rfl⟩
    · rw [h.scopes _ hi]
      refine .refl fun b hb => likeValues fun id hid => ?_
      obtain ⟨name, v⟩ := b
      cases v with
      | function f => exact .closure hi hb hid
      | _ => cases hid
    · rw [Store.scope_of_fresh_le (Nat.le_add_right _ k), Store.scope_of_fresh_le (Nat.le_add_right _ k)]
      exact Scope.like_empty

end Call

namespace Run

variable {α β : Type}

/-- A step that neither uses nor changes the current environment. -/
def Detached (x : Run α) : Prop :=
  ∀ m e, x { m with environment := e } = ((x m).1, { (x m).2 with environment := e })

namespace Detached

theorem throw (stop : Stop) : Detached (throw stop : Run α) := fun _ _ => rfl

theorem pure (a : α) : Detached (pure a : Run α) := fun _ _ => rfl

theorem bind {x : Run α} {f : α → Run β} (hx : Detached x) (hf : ∀ a, Detached (f a)) :
    Detached (x >>= f) := by
  intro m e
  rw [bind_apply, bind_apply, hx m e]
  cases x m with
  | mk r m' =>
    cases r with
    | ok a => exact hf a m' e
    | error stop => rfl

theorem map {x : Run α} (f : α → β) (hx : Detached x) : Detached (f <$> x) := by
  rw [map_eq_pure_bind]
  exact hx.bind fun a => pure (f a)

theorem note (s : Settings) (level : Nat) (line : String) : Detached (note s level line) := by
  intro m e
  unfold Run.note
  split <;> rfl

theorem inEnvironment (e : Environment) (x : Run α) : Detached (inEnvironment e x) :=
  fun _ _ => rfl

theorem blockOf (n : Node) : Detached (blockOf n) := by
  cases n with
  | block ns => exact pure ns
  | _ => exact throw _

theorem caughtAt (place : Node) {x : Run α} (hx : Detached x) : Detached (caughtAt place x) := by
  intro m e
  unfold Run.caughtAt
  rw [hx m e]
  cases x m with
  | mk r m' =>
    cases r with
    | ok a => rfl
    | error stop => cases stop <;> rfl

end Detached

/-- A function is not run in its caller's environment. -/
theorem detached_invoke (s : Settings) (frames : Nat) (f : Closure) (vs : List Value) :
    Detached (invoke s frames f vs) := by
  match frames with
  | 0 => exact .throw _
  | 1 => exact .throw _
  | frames + 2 =>
    refine Detached.bind (fun _ _ => rfl) fun inside => ?_
    refine .bind (.inEnvironment inside _) fun _ => .bind (.blockOf f.body) fun ns => ?_
    refine .bind (.inEnvironment inside _) fun c => ?_
    cases c with
    | normal => exact .pure _
    | returned v => exact .pure v

theorem detached_apply (s : Settings) (frames : Nat) (f : Value) (vs : List Value) (paren : Node) :
    Detached (apply s frames f vs paren) := by
  cases frames with
  | zero => exact .throw _
  | succ frames =>
    cases f with
    | function closure =>
      rw [apply_function]
      split
      · exact .throw _
      · exact .bind (.note s 3 _) fun _ => .caughtAt paren (detached_invoke s frames closure vs)
    | builtin name =>
      rw [apply_builtin]
      split
      · exact .throw _
      · exact .bind (.note s 3 _) fun _ _ _ => rfl
    | _ => exact .throw _

end Run

namespace Call

variable {c c' : Call}

/-- A function's call does not use the current environment, and any other call gets at scopes from it. -/
theorem detached_or_roots_eq (s : Settings) (task : Task) :
    (∀ frames, Run.Detached (task.run s frames)) ∨
      ∀ frames m, (Call.mk frames task m).roots = m.environment.scopes := by
  cases task with
  | apply f vs paren => exact .inl fun frames => .map _ (Run.detached_apply s frames f vs paren)
  | invoke f vs => exact .inl fun frames => .map _ (Run.detached_invoke s frames f vs)
  | _ => exact .inr fun _ _ => rfl

theorem mem_roots_of_passed {v : Value} {id : ScopeId} (hv : v ∈ c.passed) (hid : id ∈ v.scopes) :
    id ∈ c.roots := by
  obtain ⟨frames, task, m⟩ := c
  cases task with
  | apply f vs paren => exact List.mem_flatMap.2 ⟨v, hv, hid⟩
  | invoke f vs => exact List.mem_flatMap.2 ⟨v, hv, hid⟩
  | _ => cases hv

/-- What is passed to a call is alike on both sides, as are the trees. -/
theorem Agrees.task_like (h : c.Agrees c') (hc : c.Grounded) (hc' : c'.Grounded) :
    c.task.Like Eq (h.pairing hc hc').Environments c'.task := by
  have hnodes := Node.Like.refl (T := Eq) fun _ => rfl
  have hall := Node.Like.refl_all (T := Eq) fun _ => rfl
  have hpassed : ∀ v ∈ c.passed, c.LikeValues c' v v := fun v hv =>
    likeValues fun id hid => .root (mem_roots_of_passed hv hid)
  obtain ⟨frames, task, m⟩ := c
  rw [h.task]
  cases task with
  | evaluate n => exact .evaluate (hnodes n)
  | evaluateAll ns => exact .evaluateAll (hall ns)
  | apply f vs paren =>
    obtain ⟨hf, hvs⟩ := List.forall_mem_cons.1 hpassed
    exact .apply hf (List.forall₂_same.2 hvs) (hnodes paren)
  | invoke f vs =>
    obtain ⟨hf, hvs⟩ := List.forall_mem_cons.1 hpassed
    cases hf with
    | same hf => cases hf
    | function hf => exact .invoke hf (List.forall₂_same.2 hvs)
  | executeAll ns => exact .executeAll (hall ns)
  | execute n => exact .execute (hnodes n)

/-- A call may as well begin in an environment that is new or that it can get at: but for its
environment it ends in the same way. -/
theorem Agrees.exists_environments (h : c.Agrees c') (hc : c.Grounded) (hc' : c'.Grounded)
    (s : Settings) : ∃ e e', (h.pairing hc hc').Environments e e' ∧
      (∃ d, c.task.run s c.frames { c.machine with environment := e } =
        ((c.ending s).1, { (c.ending s).2 with environment := d })) ∧
      ∃ d, c'.task.run s c'.frames { c'.machine with environment := e' } =
        ((c'.ending s).1, { (c'.ending s).2 with environment := d }) := by
  rcases detached_or_roots_eq s c.task with hd | hroots
  · have hd' : Run.Detached (c'.task.run s c'.frames) := by
      rw [h.task]
      exact hd c'.frames
    have hnew : c.Renames c' c.machine.store.fresh c'.machine.store.fresh := .inr ⟨0, rfl, rfl⟩
    exact ⟨⟨c.machine.store.fresh, []⟩, ⟨c'.machine.store.fresh, []⟩, .cons hnew .nil,
      ⟨_, hd c.frames c.machine _⟩, ⟨_, hd' c'.machine _⟩⟩
  · have hscopes : c.roots = c.machine.environment.scopes := hroots c.frames c.machine
    have hscopes' : c'.roots = c'.machine.environment.scopes := by
      have hr := hroots c'.frames c'.machine
      rwa [← h.task] at hr
    have heq : c'.machine.environment.scopes = c.machine.environment.scopes := by
      rw [← hscopes, ← hscopes', h.roots]
    refine ⟨c.machine.environment, c'.machine.environment, ?_, ⟨_, rfl⟩, ⟨_, rfl⟩⟩
    unfold Pairing.Environments
    rw [heq]
    exact environments fun id hid => .root (hscopes ▸ hid)

/-- Calls that agree end alike, with alike scopes wherever one stands for another. -/
theorem Agrees.ends (h : c.Agrees c') (hc : c.Grounded) (hc' : c'.Grounded) (s : Settings) :
    Stores h hc hc' (c.ending s).2.store (c'.ending s).2.store ∧
    (∃ out, (c.ending s).2.output = c.machine.output ++ out ∧
      (c'.ending s).2.output = c'.machine.output ++ out) ∧
    (c'.ending s).2.clock = (c.ending s).2.clock ∧
    Ends Eq (List.Forall₂ (c.LikeValues c')) (c.ending s).1 (c'.ending s).1 := by
  obtain ⟨e, e', he, ⟨d, hd⟩, ⟨d', hd'⟩⟩ := h.exists_environments hc hc' s
  have hbegin : (h.simulation hc hc').Machines () { c.machine with environment := e }
      { c'.machine with environment := e' } :=
    ⟨h.stores hc hc', he, ⟨"", (String.append_empty).symm, (String.append_empty).symm⟩, h.clock⟩
  have hrun := Run.simulates_run (S := h.simulation hc hc') (w := ()) s c.frames
    (h.task_like hc hc')
  obtain ⟨u, -, hend, hresult⟩ := hrun () _ _ trivial hbegin
  rw [h.frames] at hd'
  rw [hd, hd'] at hend hresult
  exact ⟨hend.store, hend.output, hend.clock, hresult⟩

end Call

end Lox
