import Lox.Proofs.Run.Branches
import Lox.Proofs.Run.Reachability

/-!
Privacy of scopes in a session. Main statement: whatever is executed in a state of a session, the scopes
that it cannot get at stay as they were, and it does not depend on them.
-/

set_option autoImplicit false

namespace Lox

namespace Session

variable {s : Settings} {frames : Nat} {past : History} {m : Machine} {saved : List Environment}

/-- A call on the scopes of a state of a session: in an environment of scopes that are there, or of a
function and with arguments whose scopes are there. -/
def Executable (s : Settings) (frames : Nat) (c : Call) : Prop :=
  (∃ past m saved, State s frames past m saved ∧ c.machine.store = m.store) ∧
    ∀ id ∈ c.roots, id < c.machine.store.fresh

/-- All functions that are bound in a session have environments of scopes that are there. -/
theorem Executable.grounded {c : Call} (h : Executable s frames c) : c.Grounded := by
  obtain ⟨⟨past, m, saved, hstate, hstore⟩, hroots⟩ := h
  obtain ⟨F, hF, -⟩ := hstate.held
  intro id hid
  induction hid with
  | root hroot => exact hroots _ hroot
  | closure _ hf ho _ =>
    rw [hstore] at hf
    have hlt := ((hF.bound hf) _ rfl).1.lt ho
    rwa [← hF.fresh, ← hstore] at hlt

/-- In every state of a session any statement or expression can be executed in the current environment. -/
theorem State.executable (h : State s frames past m saved) (limit : Nat) {task : Task}
    (hroots : (Call.mk limit task m).roots = m.environment.scopes) :
    Executable s frames ⟨limit, task, m⟩ := by
  obtain ⟨F, hF, -⟩ := h.held
  refine ⟨⟨past, m, saved, h, rfl⟩, fun id hid => ?_⟩
  rw [hroots] at hid
  exact lt_of_lt_of_eq (hF.environment.lt hid) hF.fresh.symm

/-- The calls that the evaluator makes in a session are among these. -/
theorem executable_of_underway {p : Program} {c : Call} {calls : List Call}
    (h : Session s frames past m) (hc : Run.Underway s frames p m (c :: calls)) :
    Executable s frames c := by
  obtain ⟨F, hF⟩ := h.held
  obtain ⟨G, hG, hpassed, -⟩ :=
    hc.held List.mem_cons_self (hF.mono fun f hf => hf.cons (p, m))
  have hvalue : ∀ v ∈ c.passed, ∀ id ∈ v.scopes, id < c.machine.store.fresh := by
    intro v hv id hid
    cases v with
    | function f => exact lt_of_lt_of_eq ((hpassed _ hv f rfl).1.lt hid) hG.fresh.symm
    | _ => cases hid
  have hbegun : State s frames ((p, m) :: past) c.machine _ := .begun h hc
  obtain ⟨limit, task, begun⟩ := c
  cases task with
  | apply f vs paren =>
    refine ⟨⟨_, _, _, hbegun, rfl⟩, fun id hid => ?_⟩
    obtain ⟨v, hv, hid⟩ := List.mem_flatMap.1 hid
    exact hvalue v hv id hid
  | invoke f vs =>
    refine ⟨⟨_, _, _, hbegun, rfl⟩, fun id hid => ?_⟩
    obtain ⟨v, hv, hid⟩ := List.mem_flatMap.1 hid
    exact hvalue v hv id hid
  | _ => exact hbegun.executable limit rfl

/-- Private scopes stay private. However a call ends that is executed in a session, the scopes that it
cannot get at have the bindings that they had. From two states that agree on the scopes that it can get
at, it prints the same and ends with the same fault or with the same values, and what it leaves in these
scopes and in the new ones is the same, up to the places of the new scopes. -/
theorem private_scopes_stay_private {c : Call} (h : Executable s frames c) :
    (∀ id < c.machine.store.fresh, ¬ c.Reaches id →
      (c.ending s).2.store.scope id = c.machine.store.scope id) ∧
    ∀ frames' c', Executable s frames' c' → c.Agrees c' →
      (∃ out, (c.ending s).2.output = c.machine.output ++ out ∧
        (c'.ending s).2.output = c'.machine.output ++ out) ∧
      (c'.ending s).2.clock = (c.ending s).2.clock ∧
      Ends Eq (List.Forall₂ (c.LikeValues c')) (c.ending s).1 (c'.ending s).1 ∧
      ∀ id id', c.Renames c' id id' →
        ((c.ending s).2.store.scope id).Like (c.LikeValues c') ((c'.ending s).2.store.scope id') := by
  have hc := h.grounded
  refine ⟨fun id hlt hid => ?_, fun frames' c' h' hagrees => ?_⟩
  · obtain ⟨hstores, -⟩ := (Call.Agrees.refl c).ends hc hc s
    exact hstores.others id hlt hid
  · obtain ⟨hstores, hout, hclock, hends⟩ := hagrees.ends hc h'.grounded s
    exact ⟨hout, hclock, hends, fun _ _ hid => hstores.reached.scopes hid⟩

/-- A function without a body, declared outside all blocks. -/
def idle : Closure := ⟨wordOfName "f", [], .block [], .global⟩

theorem private_scopes_stay_private_idle :
    let m := (Machine.fresh (Clock.steady 0)).pushScope
    let declare : Call := ⟨2, .execute (.var (.token (wordOfName "x")) .missing), m⟩
    let before : Call := ⟨4, .invoke idle [], m⟩
    let after : Call := ⟨4, .invoke idle [], (declare.ending ⟨0, 1⟩).2⟩
    (Executable ⟨0, 1⟩ 4 before ∧ Executable ⟨0, 1⟩ 4 after ∧ before.Agrees after ∧
      ¬ after.Reaches 1) ∧
    (after.ending ⟨0, 1⟩).2.store.scope 1 = ⟨[(.word "x", .nil)]⟩ ∧
    Ends Eq (List.Forall₂ (before.LikeValues after)) (before.ending ⟨0, 1⟩).1
      (after.ending ⟨0, 1⟩).1 := by
  intro m declare before after
  have hblock : Run.Underway ⟨0, 1⟩ 4 [.block [.var (.token (wordOfName "x")) .missing]]
      (Machine.fresh (Clock.steady 0))
      [⟨4, .execute (.block [.var (.token (wordOfName "x")) .missing]), Machine.fresh (Clock.steady 0)⟩] :=
    @Run.Underway.statement _ _ _ _ [] _ _ _ rfl rfl
  have hinside := hblock.call .block
  have hdeclare := hinside.call (@Run.Calls.statement _ _ _ _ [] _ _ rfl)
  have hfresh : Session ⟨0, 1⟩ 4 [] (Machine.fresh (Clock.steady 0)) := .fresh (Clock.steady 0)
  have hroots : ∀ id ∈ before.roots, id = 0 := by
    intro id hid
    exact List.mem_singleton.1 hid
  have hbefore : Executable ⟨0, 1⟩ 4 before :=
    ⟨⟨_, _, _, .begun hfresh hinside, rfl⟩, fun id hid => by rw [hroots id hid]; decide⟩
  have hafter : Executable ⟨0, 1⟩ 4 after :=
    ⟨⟨_, _, _, .ended hfresh hdeclare, rfl⟩, fun id hid => by rw [hroots id hid]; decide⟩
  have honly : ∀ begun : Machine, begun.store.scope 0 = m.store.scope 0 →
      ∀ id, (Call.mk 4 (.invoke idle []) begun).Reaches id → id = 0 := by
    intro begun hglobal id hid
    induction hid with
    | root hroot => exact hroots _ hroot
    | closure _ hf _ ih =>
      subst ih
      change _ ∈ (begun.store.scope 0).bindings at hf
      rw [hglobal] at hf
      cases hf with
      | tail _ hf => cases hf
  have hagrees : before.Agrees after := by
    refine ⟨rfl, rfl, rfl, fun id hid => ?_, rfl⟩
    rw [honly m rfl id hid]
    rfl
  have hprivate : ¬ after.Reaches 1 := fun hid => nomatch honly (declare.ending _).2 rfl 1 hid
  have hkept := (private_scopes_stay_private hafter).1 1 (by decide) hprivate
  obtain ⟨-, -, hends, -⟩ := (private_scopes_stay_private hbefore).2 4 after hafter hagrees
  exact ⟨⟨hbefore, hafter, hagrees, hprivate⟩, hkept, hends⟩

end Session

end Lox
