import Lox.Proofs.Run.Pairing
import Lox.Proofs.Run.Simulation
import Lox.Proofs.Run.Vacancy

/-!
Two runs of which the first has empty scopes between those that it shares with the second, also in the
environments of functions. Main statement: statements that declare nothing need no scope of their own. In
one they run as they do without it, and whatever is executed afterwards does not tell the two apart.
-/

set_option autoImplicit false

namespace Lox

/-- Which scopes of a first run stand for which of a second, and which are empty and stand for none. -/
structure Thinning where
  pairing : Pairing
  vacant : ScopeId → Prop
  apart : ∀ {i i'}, pairing.pairs i i' → ¬ vacant i

namespace Thinning

/-- Scopes and those that they stand for, where empty ones are left out. -/
inductive Scopes (w : Thinning) : List ScopeId → List ScopeId → Prop where
  | nil : Scopes w [] []
  | keep {i i' : ScopeId} {is is' : List ScopeId} (hi : w.pairing.pairs i i') (h : Scopes w is is') :
      Scopes w (i :: is) (i' :: is')
  | skip {i : ScopeId} {is is' : List ScopeId} (hi : w.vacant i) (h : Scopes w is is') :
      Scopes w (i :: is) is'

/-- Environments that differ in empty scopes, though not in the innermost one: names are bound there. -/
structure Environments (w : Thinning) (e e' : Environment) : Prop where
  innermost : w.pairing.pairs e.innermost e'.innermost
  outer : w.Scopes e.outer e'.outer

/-- Values alike but for empty scopes around functions. -/
abbrev Values (w : Thinning) : Value → Value → Prop := Value.Like Eq w.Environments

structure Stores (w : Thinning) (st st' : Store) : Prop where
  matched : w.pairing.Matches w.Values st st'
  there : ∀ {i i'}, w.pairing.pairs i i' → i < st.fresh
  vacant : ∀ {i}, w.vacant i → st.Vacant i

/-- More scopes stand for each other, and more are empty. -/
structure Grows (w u : Thinning) : Prop where
  pairs : ∀ {i i'}, w.pairing.pairs i i' → u.pairing.pairs i i'
  vacant : ∀ {i}, w.vacant i → u.vacant i

variable {w u v : Thinning} {st st' : Store} {e e' : Environment} {is is' : List ScopeId}

theorem Grows.refl (w : Thinning) : Grows w w := ⟨id, id⟩

theorem Grows.trans (h : Grows w u) (h' : Grows u v) : Grows w v :=
  ⟨fun hi => h'.pairs (h.pairs hi), fun hi => h'.vacant (h.vacant hi)⟩

theorem Scopes.mono (hg : Grows w u) (h : w.Scopes is is') : u.Scopes is is' := by
  induction h with
  | nil => exact .nil
  | keep hi _ ih => exact .keep (hg.pairs hi) ih
  | skip hi _ ih => exact .skip (hg.vacant hi) ih

theorem Environments.mono (hg : Grows w u) (h : w.Environments e e') : u.Environments e e' :=
  ⟨hg.pairs h.innermost, h.outer.mono hg⟩

theorem Environments.scopes (h : w.Environments e e') : w.Scopes e.scopes e'.scopes :=
  .keep h.innermost h.outer

/-- Without its empty scopes a list of scopes is paired with the other, and names are found in it where
they were. -/
theorem Scopes.exists_kept (h : w.Scopes is is') (hs : w.Stores st st') :
    ∃ ks, List.Forall₂ w.pairing.pairs ks is' ∧
      (∀ name, ks.findSome? (fun i => (st.scope i).get? name) =
        is.findSome? fun i => (st.scope i).get? name) ∧
      ∀ name, ks.find? (fun i => (st.scope i).binds name) =
        is.find? fun i => (st.scope i).binds name := by
  induction h with
  | nil => exact ⟨[], .nil, fun _ => rfl, fun _ => rfl⟩
  | @keep i i' is is' hi _ ih =>
    obtain ⟨ks, hks, hget, hfind⟩ := ih
    refine ⟨i :: ks, .cons hi hks, fun name => ?_, fun name => ?_⟩
    · rw [List.findSome?_cons, List.findSome?_cons, hget]
    · rw [List.find?_cons, List.find?_cons, hfind]
  | @skip i is is' hi _ ih =>
    obtain ⟨ks, hks, hget, hfind⟩ := ih
    refine ⟨ks, hks, fun name => ?_, fun name => ?_⟩
    · rw [List.findSome?_cons, (hs.vacant hi).get? name, hget]
    · rw [List.find?_cons, (hs.vacant hi).binds name, hfind]

theorem Environments.exists_kept (h : w.Environments e e') (hs : w.Stores st st') :
    ∃ k : Environment, w.pairing.Environments k e' ∧ k.innermost = e.innermost ∧
      (∀ name, k.get? st name = e.get? st name) ∧ ∀ name, k.find? st name = e.find? st name := by
  obtain ⟨ks, hks, hget, hfind⟩ := h.outer.exists_kept hs
  refine ⟨⟨e.innermost, ks⟩, .cons h.innermost hks, rfl, fun name => ?_, fun name => ?_⟩
  · unfold Environment.get? Environment.scopes
    rw [List.findSome?_cons, List.findSome?_cons, hget]
  · unfold Environment.find? Environment.scopes
    rw [List.find?_cons, List.find?_cons, hfind]

namespace Stores

theorem set (h : w.Stores st st') {id id' : ScopeId} (hid : w.pairing.pairs id id') (name : Name)
    {a a' : Value} (ha : w.Values a a') : w.Stores (st.set id name a) (st'.set id' name a') := by
  refine ⟨h.matched.set hid name ha, fun hi => by simpa using h.there hi, fun {i} hi => ?_⟩
  have hne : i ≠ id := by
    rintro rfl
    exact w.apart hid hi
  exact (h.vacant hi).set hne name a

theorem get? (h : w.Stores st st') (he : w.Environments e e') (name : Name) :
    Option.Rel w.Values (e.get? st name) (e'.get? st' name) := by
  obtain ⟨k, hk, -, hget, -⟩ := he.exists_kept h
  rw [← hget]
  exact h.matched.get? hk name

theorem assign? (h : w.Stores st st') (he : w.Environments e e') (name : Name) {a a' : Value}
    (ha : w.Values a a') : Option.Rel w.Stores (e.assign? st name a) (e'.assign? st' name a') := by
  obtain ⟨k, hk, -, -, hfind⟩ := he.exists_kept h
  have hfound := h.matched.find? hk name
  rw [hfind] at hfound
  unfold Environment.assign?
  generalize e.find? st name = o, e'.find? st' name = o' at hfound
  cases hfound with
  | none => exact .none
  | some hid => exact .some (h.set hid name ha)

theorem fresh_le (h : w.Stores st st') {i i' : ScopeId} (hi : w.pairing.pairs i i') :
    i ≠ st.fresh ∧ i' ≠ st'.fresh :=
  ⟨Nat.ne_of_lt (h.there hi), Nat.ne_of_lt ((h.matched.there hi).1 (h.there hi))⟩

/-- The scopes that are opened next stand for each other. -/
def pair (h : w.Stores st st') : Thinning where
  pairing :=
    { pairs := fun i i' => w.pairing.pairs i i' ∨ (i = st.fresh ∧ i' = st'.fresh)
      eq_iff := by
        rintro i i' j j' (hi | ⟨rfl, rfl⟩) (hj | ⟨rfl, rfl⟩)
        · exact w.pairing.eq_iff hi hj
        · exact iff_of_false (h.fresh_le hi).1 (h.fresh_le hi).2
        · exact iff_of_false (h.fresh_le hj).1.symm (h.fresh_le hj).2.symm
        · exact iff_of_true rfl rfl }
  vacant := w.vacant
  apart := by
    rintro i i' (hi | ⟨rfl, -⟩) hv
    · exact w.apart hi hv
    · exact Nat.lt_irrefl _ (h.vacant hv).lt

theorem grows_pair (h : w.Stores st st') : Grows w h.pair := ⟨.inl, id⟩

theorem pair_fresh (h : w.Stores st st') : h.pair.pairing.pairs st.fresh st'.fresh := .inr ⟨rfl, rfl⟩

/-- The scope that the first run opens next is empty and stands for none. -/
def spare (h : w.Stores st st') : Thinning where
  pairing := w.pairing
  vacant i := w.vacant i ∨ i = st.fresh
  apart := by
    rintro i i' hi (hv | rfl)
    · exact w.apart hi hv
    · exact (h.fresh_le hi).1 rfl

theorem grows_spare (h : w.Stores st st') : Grows w h.spare := ⟨id, .inl⟩

theorem scopes_mono (h : w.Stores st st') (hg : Grows w u) {i i' : ScopeId}
    (hi : w.pairing.pairs i i') : (st.scope i).Like u.Values (st'.scope i') :=
  (h.matched.scopes hi).imp fun _ _ hb => ⟨hb.1, hb.2.mono (.mono hg)⟩

theorem addScope_pair (h : w.Stores st st') : h.pair.Stores st.addScope st'.addScope := by
  have hthere : ∀ {i i'}, h.pair.pairing.pairs i i' → i < st.fresh + 1 ∧ i' < st'.fresh + 1 := by
    rintro i i' (hi | ⟨rfl, rfl⟩)
    · have hlt := h.there hi
      exact ⟨Nat.lt_succ_of_lt hlt, Nat.lt_succ_of_lt ((h.matched.there hi).1 hlt)⟩
    · exact ⟨Nat.lt_succ_self _, Nat.lt_succ_self _⟩
  refine ⟨⟨fun hi => ?_, fun hi => ?_⟩, fun hi => ?_, fun hi => (h.vacant hi).addScope⟩
  · rw [Store.fresh_addScope, Store.fresh_addScope]
    exact iff_of_true (hthere hi).1 (hthere hi).2
  · rw [Store.scope_addScope_eq, Store.scope_addScope_eq]
    rcases hi with hi | ⟨rfl, rfl⟩
    · exact h.scopes_mono h.grows_pair hi
    · rw [Store.scope_of_fresh_le (Nat.le_refl _), Store.scope_of_fresh_le (Nat.le_refl _)]
      exact Scope.like_empty
  · rw [Store.fresh_addScope]
    exact (hthere hi).1

theorem addScope_spare (h : w.Stores st st') : h.spare.Stores st.addScope st' := by
  refine ⟨⟨fun hi => ?_, fun hi => ?_⟩, fun hi => ?_, fun hi => ?_⟩
  · rw [Store.fresh_addScope]
    have hlt := h.there hi
    exact iff_of_true (Nat.lt_succ_of_lt hlt) ((h.matched.there hi).1 hlt)
  · rw [Store.scope_addScope_eq]
    exact h.scopes_mono h.grows_spare hi
  · rw [Store.fresh_addScope]
    exact Nat.lt_succ_of_lt (h.there hi)
  · rcases hi with hi | rfl
    · exact (h.vacant hi).addScope
    · exact .fresh st

/-- A scope inside environments that may also differ in an empty innermost scope. -/
theorem push_pair (h : w.Stores st st') (he : w.Scopes e.scopes e'.scopes) :
    h.pair.Environments (e.push st.fresh) (e'.push st'.fresh) :=
  ⟨h.pair_fresh, he.mono h.grows_pair⟩

end Stores

end Thinning

theorem Token.sameText_of_eq {t t' : Token} (h : t = t') : t.SameText t' := by
  subst h
  exact ⟨rfl, rfl, rfl⟩

/-- What is printed the same stays the same with one more line. -/
theorem printed_line {o o' : String} (line : String) (h : o = o') :
    o ++ line ++ "\n" = o' ++ line ++ "\n" := by rw [h]

/-- Two runs that differ in empty scopes. -/
def Simulation.thinned : Simulation where
  World := Thinning
  grows := Thinning.Grows
  tokens := Eq
  environments := Thinning.Environments
  stores := Thinning.Stores
  outputs := Eq
  refl := .refl
  trans := .trans
  sameText := Token.sameText_of_eq
  mono hg he := he.mono hg
  printed := printed_line
  get n hs he := hs.get? he n
  define n hs he hv := hs.set he.innermost n hv
  assign n hs he hv := hs.assign? he n hv
  enclose hs he := ⟨hs.pair, hs.grows_pair, hs.addScope_pair, hs.push_pair he.scopes⟩

namespace Run

open Simulation (thinned)

variable {α β : Type} {w : Thinning} {id : ScopeId} {P : Thinning → α → β → Prop}

theorem Overlooks.simulates {x : Run α} {y : Run β} (h : Overlooks id x) (hid : w.vacant id)
    (hxy : Simulates thinned w P x y) : Simulates thinned w P (inside id x) y := by
  intro v m m' hv hm
  rw [h.inside_eq m (hm.store.vacant (hv.vacant hid))]
  exact hxy v m m' hv hm

/-- A block in an empty scope. The scope is outside the block's own and is passed by there. -/
theorem simulates_inside_inScope {x : Run α} {y : Run β} (hid : w.vacant id)
    (hy : Keeps ScopesKept y) (h : Simulates thinned w P x y) :
    Simulates thinned w P (inside id (inScope x)) (inScope y) := by
  intro v m m' hv hm
  obtain ⟨u, hu, hn, hend⟩ := h hm.store.pair
    { m with
      store := m.store.addScope
      environment := (m.environment.push id).push m.store.fresh }
    m'.pushScope (hv.trans hm.store.grows_pair)
    ⟨hm.store.addScope_pair,
      hm.store.push_pair (.skip (hv.vacant hid) hm.environment.scopes), hm.output, hm.clock⟩
  have hgrows : Thinning.Grows v u := hm.store.grows_pair.trans hu
  have hpop : (y m'.pushScope).2.popScope.environment = m'.environment :=
    (hy m'.pushScope).popScope.environment
  refine ⟨u, hgrows, ⟨hn.store, ?_, hn.output, hn.clock⟩, hend⟩
  change u.Environments m.environment (y m'.pushScope).2.popScope.environment
  rw [hpop]
  exact hm.environment.mono hgrows

/-- A statement that declares nothing does not need the scope that it is executed in, if that is empty. -/
theorem simulates_inside_execute {n : Node} (hn : n.declared = []) (hid : w.vacant id) (s : Settings)
    (frames : Nat) :
    Simulates thinned w thinned.Completions (inside id (execute s frames n)) (execute s frames n) := by
  have hlike := Node.Like.refl (T := Eq) fun _ => rfl
  induction frames generalizing w n with
  | zero => exact .throw .exhausted
  | succ frames ih =>
    have hself := (allSimulate thinned s (frames + 1)).execute (w := w) (hlike n)
    have hall := allSimulate thinned s frames
    have hkeeps := allKeep law_scopesKept s frames
    have hevaluate := (overlooks_evaluate id s frames).1
    cases n with
    | expression value =>
      exact (Overlooks.bind (hevaluate value) fun _ => .pure _).simulates hid hself
    | print value =>
      exact (Overlooks.bind (hevaluate value) fun v => .bind (.print _) fun _ => .pure _).simulates hid
        hself
    | ret keyword value =>
      rw [execute_ret] at hself ⊢
      exact (Overlooks.bind (overlooks_valueOf? id s frames value) fun v => .pure _).simulates hid hself
    | block statements =>
      exact simulates_inside_inScope hid (hkeeps.executeAll _)
        (hall.executeAll (Node.Like.refl_all (fun _ => rfl) statements))
    | ifElse condition thenBranch elseBranch =>
      obtain ⟨hthen, helse⟩ := List.append_eq_nil_iff.1 hn
      rw [execute_ifElse, inside_bind (hkeeps.evaluate condition)]
      refine .bind ((hevaluate condition).simulates hid (hall.evaluate (hlike condition)))
        fun {v a b} hv hab => ?_
      rw [inside_bind (.note law_scopesKept s 3 _)]
      refine .bind ((Overlooks.note s 3 _).simulates (hv.vacant hid) (.note s 3 _ _))
        fun {u _ _} hu _ => ?_
      have hidu := hu.vacant (hv.vacant hid)
      rw [hab.isTruthy_eq]
      split
      · exact ih hthen hidu
      · cases elseBranch with
        | missing => exact .pure fun _ => .normal
        | _ => exact ih helse hidu
    | whileDo condition body =>
      have hbody : body.declared = [] := hn
      change Simulates thinned w _ (inside id (loop _ _ s.turns)) (loop _ _ s.turns)
      rw [inside_loop (hkeeps.evaluate condition) (hkeeps.execute body)]
      refine .loop (fun hv => ?_) (fun hv => ih hbody (hv.vacant hid)) s.turns
      exact (hevaluate condition).simulates (hv.vacant hid) (hall.evaluate (hlike condition))
    | var name initializer => exact (overlooks_var hn s frames).simulates hid hself
    | function name params body => exact (overlooks_function hn s frames).simulates hid hself
    | _ => exact .throw (.malformed (.noStatement (hlike _)))

/-- A sequence of such statements does not need it either. -/
theorem simulates_inside_sequence {ns : List Node} (hns : ∀ n ∈ ns, n.declared = [])
    (hid : w.vacant id) (s : Settings) (frames : Nat) :
    Simulates thinned w thinned.Completions (inside id (sequence (execute s frames) ns))
      (sequence (execute s frames) ns) := by
  induction ns generalizing w with
  | nil => exact .pure fun _ => .normal
  | cons n ns ih =>
    obtain ⟨hn, hns⟩ := List.forall_mem_cons.1 hns
    rw [sequence, inside_bind ((allKeep law_scopesKept s frames).execute n)]
    refine .bind (simulates_inside_execute hn hid s frames) fun {v c c'} hv hc => ?_
    cases hc with
    | normal => exact ih hns (hv.vacant hid)
    | returned hr => exact .pure fun hu => .returned (hr.mono (Thinning.Environments.mono hu))

/-- A block of statements that declare nothing runs as they do in the scope around it. -/
theorem simulates_needless_scope {ns : List Node} (hns : ∀ n ∈ ns, n.declared = []) (s : Settings)
    (frames : Nat) :
    Simulates thinned w thinned.Completions (inScope (sequence (execute s frames) ns))
      (sequence (execute s frames) ns) := by
  intro v m m' hv hm
  rw [inScope_eq_inside (.sequence law_scopesKept (allKeep law_scopesKept s frames).execute ns)]
  have hstore := hm.store
  obtain ⟨u, hu, hn, hend⟩ := simulates_inside_sequence (w := hstore.spare) hns (.inr rfl) s frames
    hstore.spare { m with store := m.store.addScope } m' (.refl _)
    ⟨hstore.addScope_spare, hm.environment.mono hstore.grows_spare, hm.output, hm.clock⟩
  exact ⟨u, hstore.grows_spare.trans hu, hn, hend⟩

end Run

end Lox
