import Mathlib.Data.List.Induction
import Lox.Proofs.Run.Bindings
import Lox.Proofs.Run.ScopeTree

/-!
Where functions come from. Main statement: a call of the evaluator that begins on a machine held by a tree
of scopes ends on a machine held by a tree that has grown, and the functions that are new there were all
made by the call or by one that it led to, in the environment that was current at that moment.
-/

set_option autoImplicit false

namespace Lox

/-- The execution of a function's declaration makes a function, in the environment that is current. -/
inductive Call.Makes : Call → Closure → Prop where
  | mk {frames : Nat} {t : Token} {params : List Node} {body : Node} {m : Machine} :
      Makes ⟨frames + 1, .execute (.function (.token t) params body), m⟩
        ⟨t, params, body, m.environment⟩

/-- A sort of calls, with all calls that they make, and a sort of functions, with all that such calls
make. -/
structure Origin (s : Settings) where
  calls : Call → Prop
  functions : Closure → Prop
  closed : ∀ {c d : Call}, calls c → Run.Calls s c d → calls d
  made : ∀ {c : Call} {f : Closure}, calls c → c.Makes f → functions f

namespace Run

variable {α β : Type} {P : Closure → Prop} {F : ScopeTree} {m : Machine}

/-- From a machine, if a tree holds it, a step comes to a machine that is held by a tree that has grown,
with results of a sort. -/
def Upholds (P : Closure → Prop) (F : ScopeTree) (Q : ScopeTree → α → Prop) (x : Run α)
    (m : Machine) : Prop :=
  F.Holds P m → ∃ G, F.Grows G ∧ G.Holds P (x m).2 ∧ ∀ a, (x m).1 = .ok a → Q G a

/-- Machines with the same scopes. -/
structure Still (m m' : Machine) : Prop where
  store : m'.store = m.store
  environment : m'.environment = m.environment

theorem quietLaw_still : QuietLaw Still where
  refl _ := ⟨rfl, rfl⟩
  trans h h' := ⟨h'.store.trans h.store, h'.environment.trans h.environment⟩
  noted _ _ := ⟨rfl, rfl⟩
  printed _ _ := ⟨rfl, rfl⟩
  ticked _ _ := ⟨rfl, rfl⟩

theorem Still.holds {m' : Machine} (hs : Still m m') (h : F.Holds P m) : F.Holds P m' := by
  refine ⟨hs.store ▸ h.fresh, hs.environment ▸ h.environment, fun {id name v} hv => ?_⟩
  rw [hs.store] at hv
  exact h.bound hv

namespace Upholds

variable {Q : ScopeTree → α → Prop} {R : ScopeTree → β → Prop}

theorem still {x : Run α} (hx : Keeps Still x) (hQ : ∀ a m', x m = (.ok a, m') → Q F a) :
    Upholds P F Q x m := by
  intro h
  exact ⟨F, .refl F, (hx m).holds h, fun a ha => hQ a (x m).2 (Prod.ext ha rfl)⟩

theorem pure {a : α} (h : Q F a) : Upholds P F Q (pure a : Run α) m :=
  fun hm => ⟨F, .refl F, hm, by rintro _ ⟨⟩; exact h⟩

theorem throw (stop : Stop) : Upholds P F Q (throw stop : Run α) m :=
  fun hm => ⟨F, .refl F, hm, nofun⟩

theorem bind {x : Run α} {f : α → Run β} (hx : Upholds P F Q x m)
    (hf : ∀ {G a m'}, F.Grows G → x m = (.ok a, m') → Q G a → Upholds P G R (f a) m') :
    Upholds P F R (x >>= f) m := by
  intro hm
  obtain ⟨G, hG, hm', hq⟩ := hx hm
  rw [bind_apply]
  cases hr : x m with
  | mk r m' =>
    rw [hr] at hm' hq
    cases r with
    | error stop => exact ⟨G, hG, hm', nofun⟩
    | ok a =>
      obtain ⟨H, hH, hend⟩ := hf hG hr (hq a rfl) hm'
      exact ⟨H, hG.trans hH, hend⟩

theorem map {x : Run α} {f : α → β} (hx : Upholds P F Q x m) (hf : ∀ {G} a, Q G a → R G (f a)) :
    Upholds P F R (f <$> x) m := by
  rw [map_eq_pure_bind]
  exact hx.bind fun _ _ hq => pure (hf _ hq)

theorem ok {x : Run α} {a : α} {m' : Machine} (hx : Upholds P F Q x m) (hm : F.Holds P m)
    (hr : x m = (.ok a, m')) : ∃ G, F.Grows G ∧ G.Holds P m' ∧ Q G a := by
  obtain ⟨G, hG, hm', hq⟩ := hx hm
  rw [hr] at hm' hq
  exact ⟨G, hG, hm', hq a rfl⟩

theorem ite {c : Prop} [Decidable c] {x y : Run α} (hx : c → Upholds P F Q x m)
    (hy : ¬ c → Upholds P F Q y m) : Upholds P F Q (if c then x else y) m := by
  split
  next h => exact hx h
  next h => exact hy h

/-- Steps that change no scope may do anything else. -/
theorem still_bind {x : Run α} {f : α → Run β} (hx : Keeps Still x)
    (hf : ∀ {a m'}, x m = (.ok a, m') → Upholds P F R (f a) m') : Upholds P F R (x >>= f) m := by
  intro hm
  have hs := hx m
  rw [bind_apply]
  cases hr : x m with
  | mk r m' =>
    rw [hr] at hs
    cases r with
    | error stop => exact ⟨F, .refl F, hs.holds hm, nofun⟩
    | ok a => exact hf hr (hs.holds hm)

/-- What is done with the machine may rely on the tree. -/
theorem get {f : Machine → Run β} (hf : F.Holds P m → Upholds P F R (f m) m) :
    Upholds P F R (MonadState.get >>= f) m := fun hm => hf hm hm

theorem lookup (t : Token) : Upholds P F (fun G v => G.Knows P v) (lookup t) m := by
  refine still_bind (.name quietLaw_still t) fun {n m'} _ hm => ?_
  simp only [bind_apply, get_apply]
  cases hv : m'.environment.get? m'.store n with
  | none => exact ⟨F, .refl F, hm, nofun⟩
  | some v => exact ⟨F, .refl F, hm, by rintro _ ⟨⟩; exact hm.get? hv⟩

theorem define (t : Token) {v : Value} (hv : F.Knows P v) :
    Upholds P F (fun _ _ => True) (define t v) m := by
  refine still_bind (.name quietLaw_still t) fun {n m'} _ hm => ?_
  exact ⟨F, .refl F, hm.set hv m'.environment.innermost n, fun _ _ => trivial⟩

theorem assign (t : Token) {v : Value} (hv : F.Knows P v) :
    Upholds P F (fun _ _ => True) (assign t v) m := by
  refine still_bind (.name quietLaw_still t) fun {n m'} _ hm => ?_
  simp only [bind_apply, get_apply]
  cases m'.environment.find? m'.store n with
  | none => exact ⟨F, .refl F, hm, nofun⟩
  | some id => exact ⟨F, .refl F, hm.set hv id n, fun _ _ => trivial⟩

theorem operated (t : Token) {r : Except Fault Value} (hr : ∀ v, r = .ok v → v.closure? = none) :
    Upholds P F (fun G v => G.Knows P v) (operated t r) m := by
  cases r with
  | ok v => exact pure (ScopeTree.knows_of_closure?_eq_none (hr v rfl))
  | error f => exact throw _

theorem enclose {e : Environment} (he : F.Has e) :
    Upholds P F (fun G inside => G.Has inside) (enclose e) m := by
  intro hm
  refine ⟨F.enclose e he, ScopeTree.grows_enclose he, hm.addScope he, ?_⟩
  rintro _ ⟨⟩
  exact hm.has_push he

theorem inEnvironment {e : Environment} (he : F.Has e) {x : Run α}
    (hx : Upholds P F Q x { m with environment := e }) : Upholds P F Q (inEnvironment e x) m := by
  intro hm
  obtain ⟨G, hG, hm', hq⟩ := hx (hm.inEnvironment he)
  exact ⟨G, hG, hm'.inEnvironment (hm.environment.mono hG), hq⟩

/-- A step in a new scope. It restores the scope stack, so that the old environment is back in the end. -/
theorem inScope {x : Run α} (hs : Keeps ScopesKept x)
    (hx : ∀ {G}, F.Grows G → Upholds P G Q x m.pushScope) : Upholds P F Q (inScope x) m := by
  intro hm
  have hgrows := ScopeTree.grows_enclose hm.environment
  obtain ⟨G, hG, hm', hq⟩ := hx hgrows hm.pushScope
  have hpop : (x m.pushScope).2.popScope.environment = m.environment :=
    (hs m.pushScope).popScope.environment
  refine ⟨G, hgrows.trans hG, ?_, hq⟩
  have hback := hm'.inEnvironment (hm.environment.mono (hgrows.trans hG))
  rw [← hpop] at hback
  exact hback

theorem caughtAt (place : Node) {x : Run α} (hx : Upholds P F Q x m) :
    Upholds P F Q (caughtAt place x) m := by
  intro hm
  obtain ⟨G, hG, hm', hq⟩ := hx hm
  unfold Run.caughtAt
  split
  next h => rw [h] at hm'; exact ⟨G, hG, hm', nofun⟩
  next => exact ⟨G, hG, hm', hq⟩

theorem bindParams (params : List Node) {vs : List Value} (hvs : ∀ v ∈ vs, F.Knows P v) :
    Upholds P F (fun _ _ => True) (bindParams params vs) m := by
  induction params generalizing F vs m with
  | nil => cases vs <;> exact pure trivial
  | cons param params ih =>
    cases vs with
    | nil => exact pure trivial
    | cons v vs =>
      refine still_bind (.token quietLaw_still param) fun {t _} _ => ?_
      refine (define t (hvs v (by simp))).bind fun hG _ _ => ih fun w hw => ?_
      exact (hvs w (by simp [hw])).mono hG

/-- The first two steps, taken together, give what the rest goes on with. -/
theorem bind_both {x : Run α} {y : α → Run Unit} {f : α → Run β}
    (hx : Upholds P F Q (do let a ← x; y a; return a) m)
    (hf : ∀ {G a m'}, F.Grows G → (do let a ← x; y a; return a) m = (.ok a, m') → Q G a →
      Upholds P G R (f a) m') : Upholds P F R (do let a ← x; y a; f a) m := by
  have hassoc : (do let a ← x; y a; f a) = (do let a ← x; y a; return a) >>= f := by
    simp only [bind_assoc, pure_bind]
  rw [hassoc]
  exact hx.bind hf

/-- The body of a function may begin: a scope is open inside the function's environment, and the
arguments are bound there. -/
theorem entered {f : Closure} {vs : List Value} (hf : F.Has f.environment)
    (hvs : ∀ v ∈ vs, F.Knows P v) :
    Upholds P F (fun G inside => G.Has inside) (do
      let inside ← Run.enclose f.environment
      Run.inEnvironment inside (Run.bindParams f.params vs)
      return inside) m := by
  refine (enclose hf).bind fun {G inside _} hG _ hinside => ?_
  refine (inEnvironment hinside (bindParams f.params fun v hv => (hvs v hv).mono hG)).bind
    fun hH _ _ => ?_
  exact pure (hinside.mono hH)

end Upholds

/-- All six functions of the evaluator, given so many frames, uphold a tree where they are called. -/
structure AllUphold (s : Settings) (O : Origin s) (frames : Nat) : Prop where
  evaluate : ∀ {F m n}, O.calls ⟨frames, .evaluate n, m⟩ →
    Upholds O.functions F (fun G v => G.Knows O.functions v) (evaluate s frames n) m
  evaluateAll : ∀ {F m ns}, O.calls ⟨frames, .evaluateAll ns, m⟩ →
    Upholds O.functions F (fun G vs => ∀ v ∈ vs, G.Knows O.functions v) (evaluateAll s frames ns) m
  apply : ∀ {F m f vs paren}, O.calls ⟨frames, .apply f vs paren, m⟩ → F.Knows O.functions f →
    (∀ v ∈ vs, F.Knows O.functions v) →
    Upholds O.functions F (fun G v => G.Knows O.functions v) (apply s frames f vs paren) m
  invoke : ∀ {F m f vs}, O.calls ⟨frames, .invoke f vs, m⟩ → F.Knows O.functions (.function f) →
    (∀ v ∈ vs, F.Knows O.functions v) →
    Upholds O.functions F (fun G v => G.Knows O.functions v) (invoke s frames f vs) m
  executeAll : ∀ {F m ns}, O.calls ⟨frames, .executeAll ns, m⟩ →
    Upholds O.functions F (fun G c => ∀ v ∈ c.values, G.Knows O.functions v)
      (executeAll s frames ns) m
  execute : ∀ {F m n}, O.calls ⟨frames, .execute n, m⟩ →
    Upholds O.functions F (fun G c => ∀ v ∈ c.values, G.Knows O.functions v) (execute s frames n) m

namespace AllUphold

variable {s : Settings} {O : Origin s} {frames : Nat}

theorem zero (O : Origin s) : AllUphold s O 0 where
  evaluate _ := .throw _
  evaluateAll _ := .throw _
  apply _ _ _ := .throw _
  invoke _ _ _ := .throw _
  executeAll _ := .throw _
  execute _ := .throw _

theorem valueOf? (ih : AllUphold s O frames) {n : Node}
    (h : n ≠ .missing → O.calls ⟨frames, .evaluate n, m⟩) :
    Upholds O.functions F (fun G v => G.Knows O.functions v) (valueOf? s frames n) m := by
  by_cases hn : n = .missing
  · subst hn
    exact .pure (ScopeTree.knows_of_closure?_eq_none rfl)
  · rw [valueOf?_of_ne hn]
    exact ih.evaluate (h hn)

theorem branchOf? (ih : AllUphold s O frames) {n : Node}
    (h : n ≠ .missing → O.calls ⟨frames, .execute n, m⟩) :
    Upholds O.functions F (fun G c => ∀ v ∈ c.values, G.Knows O.functions v)
      (branchOf? s frames n) m := by
  by_cases hn : n = .missing
  · subst hn
    exact .pure (List.forall_mem_nil _)
  · rw [branchOf?_of_ne hn]
    exact ih.execute (h hn)

theorem evaluate_succ (ih : AllUphold s O frames) {n : Node}
    (h : O.calls ⟨frames + 1, .evaluate n, m⟩) :
    Upholds O.functions F (fun G v => G.Knows O.functions v) (Run.evaluate s (frames + 1) n) m := by
  cases n with
  | literal t =>
    refine .still_bind (.token quietLaw_still t) fun _ => ?_
    exact .operated _ fun _ => Value.closure?_literal
  | grouping value => exact ih.evaluate (O.closed h .grouping)
  | «variable» name => exact .still_bind (.token quietLaw_still name) fun _ => .lookup _
  | assign name value =>
    refine .bind (ih.evaluate (O.closed h .assigned)) fun {G v _} _ _ hv => ?_
    refine .still_bind (.token quietLaw_still name) fun _ => ?_
    exact .bind (.assign _ hv) fun hH _ _ => .pure (hv.mono hH)
  | unary operator right =>
    refine .bind (ih.evaluate (O.closed h .operand)) fun _ _ _ => ?_
    refine .still_bind (.token quietLaw_still operator) fun _ => ?_
    exact .operated _ fun _ => Value.closure?_unary
  | logical left operator right =>
    refine .bind (ih.evaluate (O.closed h .logicalLeft)) fun {G v _} _ hl hv => ?_
    cases operator with
    | token t =>
      refine .ite (fun _ => .pure hv) fun hne => ?_
      exact ih.evaluate (O.closed h (.logicalRight hl hne))
    | _ => exact .throw _
  | binary left operator right =>
    refine .bind (ih.evaluate (O.closed h .binaryLeft)) fun _ hl _ => ?_
    refine .bind (ih.evaluate (O.closed h (.binaryRight hl))) fun _ _ _ => ?_
    refine .still_bind (.token quietLaw_still operator) fun _ => ?_
    exact .operated _ fun _ => Value.closure?_binary
  | call callee paren arguments =>
    refine .bind (ih.evaluate (O.closed h .callee)) fun {G f _} _ hf hknown => ?_
    refine .bind (ih.evaluateAll (O.closed h (.arguments hf))) fun {H vs _} hH hvs hall => ?_
    exact ih.apply (O.closed h (.apply hf hvs)) (hknown.mono hH) hall
  | _ => exact .throw _

/-- The first arguments of a call are evaluated one by one, each as a call after those before it. -/
theorem collected (ih : AllUphold s O frames) {before after : List Node}
    (h : O.calls ⟨frames + 1, .evaluateAll (before ++ after), m⟩) :
    Upholds O.functions F (fun G vs => ∀ v ∈ vs, G.Knows O.functions v)
      (Run.collect (Run.evaluate s frames) #[] before) m := by
  induction before using List.reverseRecOn generalizing after with
  | nil => exact .pure (List.forall_mem_nil _)
  | append_singleton before n ihb =>
    rw [List.append_assoc] at h
    rw [collect_append]
    refine .bind (ihb h) fun {G vs m'} _ hbefore hvs => ?_
    refine .bind (ih.evaluate (O.closed h (.argument hbefore))) fun {H v _} hH _ hv => .pure ?_
    intro w hw
    have hmem : w ∈ vs ∨ w = v := by simpa using hw
    rcases hmem with hw | rfl
    · exact (hvs w hw).mono hH
    · exact hv

/-- The first statements of a list are executed one by one, each as a call after those before it. -/
theorem sequenced (ih : AllUphold s O frames) {before after : List Node}
    (h : O.calls ⟨frames + 1, .executeAll (before ++ after), m⟩) :
    Upholds O.functions F (fun G c => ∀ v ∈ c.values, G.Knows O.functions v)
      (Run.sequence (Run.execute s frames) before) m := by
  induction before using List.reverseRecOn generalizing after with
  | nil => exact .pure (List.forall_mem_nil _)
  | append_singleton before n ihb =>
    rw [List.append_assoc] at h
    rw [sequence_append]
    refine .bind (ihb h) fun {G c m'} _ hbefore hc => ?_
    cases c with
    | returned v => exact .pure hc
    | normal =>
      refine .bind (ih.execute (O.closed h (.statement hbefore))) fun {H c _} _ _ hc => ?_
      cases c with
      | normal => exact .pure (List.forall_mem_nil _)
      | returned v => exact .pure hc

theorem evaluateAll_succ (ih : AllUphold s O frames) {ns : List Node}
    (h : O.calls ⟨frames + 1, .evaluateAll ns, m⟩) :
    Upholds O.functions F (fun G vs => ∀ v ∈ vs, G.Knows O.functions v)
      (Run.evaluateAll s (frames + 1) ns) m := by
  rw [← List.append_nil ns] at h
  exact ih.collected h

theorem executeAll_succ (ih : AllUphold s O frames) {ns : List Node}
    (h : O.calls ⟨frames + 1, .executeAll ns, m⟩) :
    Upholds O.functions F (fun G c => ∀ v ∈ c.values, G.Knows O.functions v)
      (Run.executeAll s (frames + 1) ns) m := by
  rw [← List.append_nil ns] at h
  exact ih.sequenced h

theorem apply_succ (ih : AllUphold s O frames) {f : Value} {vs : List Value} {paren : Node}
    (h : O.calls ⟨frames + 1, .apply f vs paren, m⟩) (hf : F.Knows O.functions f)
    (hvs : ∀ v ∈ vs, F.Knows O.functions v) :
    Upholds O.functions F (fun G v => G.Knows O.functions v)
      (Run.apply s (frames + 1) f vs paren) m := by
  cases f with
  | function closure =>
    rw [apply_function]
    refine .ite (fun _ => .throw _) fun hlength => ?_
    have hlength : vs.length = closure.params.length := Decidable.not_not.1 hlength
    refine .still_bind (.note quietLaw_still s 3 _) fun {_ m'} hnote => .caughtAt paren ?_
    have hm' : m' = (note s 3 (callLine closure vs) m).2 := congrArg Prod.snd hnote.symm
    rw [hm']
    exact ih.invoke (O.closed h (.invoke hlength)) hf hvs
  | builtin name =>
    rw [apply_builtin]
    refine .ite (fun _ => .throw _) fun _ => .still_bind (.note quietLaw_still s 3 _) fun _ => ?_
    refine .still (.readClock quietLaw_still) fun v m' hv => ScopeTree.knows_of_closure?_eq_none ?_
    cases hv
    rfl
  | _ => exact .throw _

theorem invoke_succ_succ (ih : AllUphold s O frames) {f : Closure} {vs : List Value}
    (h : O.calls ⟨frames + 2, .invoke f vs, m⟩) (hf : F.Knows O.functions (.function f))
    (hvs : ∀ v ∈ vs, F.Knows O.functions v) :
    Upholds O.functions F (fun G v => G.Knows O.functions v) (Run.invoke s (frames + 2) f vs) m := by
  refine .bind_both (.entered (hf f rfl).1 hvs) fun {G inside m'} _ hentered hinside => ?_
  cases hbody : f.body with
  | block ns =>
    have hcall := O.closed h (.body hbody hentered)
    refine .still_bind (.blockOf quietLaw_still _) fun hns => ?_
    cases hns
    refine .bind (.inEnvironment hinside (ih.executeAll hcall)) fun {H c _} _ _ hc => ?_
    cases c with
    | normal => exact .pure (ScopeTree.knows_of_closure?_eq_none rfl)
    | returned v => exact .pure (hc v (by simp [Completion.values]))
  | _ => exact .throw _

theorem execute_whileDo_succ (ih : AllUphold s O frames) {c n : Node}
    (h : O.calls ⟨frames + 1, .execute (.whileDo c n), m⟩) :
    Upholds O.functions F (fun G c => ∀ v ∈ c.values, G.Knows O.functions v)
      (Run.execute s (frames + 1) (.whileDo c n)) m := by
  have hrest : ∀ (turns k : Nat) {F m'}, k + turns = s.turns →
      Turned (Run.evaluate s frames c) (Run.execute s frames n) k m m' →
      Upholds O.functions F (fun G c => ∀ v ∈ c.values, G.Knows O.functions v)
        (Run.loop (Run.evaluate s frames c) (Run.execute s frames n) turns) m' := by
    intro turns
    induction turns with
    | zero => exact fun k F m' _ _ => .throw _
    | succ turns iht =>
      intro k F m' hk hturned
      have hlt : k < s.turns := by omega
      refine .bind (ih.evaluate (O.closed h (.condition hlt hturned))) fun {G v _} _ hc _ => ?_
      refine .ite (fun hv => ?_) fun _ => .pure (List.forall_mem_nil _)
      refine .bind (ih.execute (O.closed h (.turn hlt hturned hc hv))) fun {H e _} _ hb he => ?_
      cases e with
      | returned v => exact .pure he
      | normal => exact iht (k + 1) (by omega) (.more hturned hc hv hb)
  exact hrest s.turns 0 (by simp) .none

theorem execute_succ (ih : AllUphold s O frames) {n : Node}
    (h : O.calls ⟨frames + 1, .execute n, m⟩) :
    Upholds O.functions F (fun G c => ∀ v ∈ c.values, G.Knows O.functions v)
      (Run.execute s (frames + 1) n) m := by
  cases n with
  | expression value =>
    exact .bind (ih.evaluate (O.closed h .discarded)) fun _ _ _ => .pure (List.forall_mem_nil _)
  | print value =>
    refine .bind (ih.evaluate (O.closed h .printed)) fun _ _ _ => ?_
    exact .still_bind (.print quietLaw_still _) fun _ => .pure (List.forall_mem_nil _)
  | var name initializer =>
    rw [execute_var]
    refine .bind (ih.valueOf? fun hn => O.closed h (.initializer hn)) fun {G v _} _ _ hv => ?_
    refine .still_bind (.token quietLaw_still name) fun {t _} _ => ?_
    refine .bind (.define t hv) fun _ _ _ => ?_
    exact .still_bind (.note quietLaw_still s 2 _) fun _ => .pure (List.forall_mem_nil _)
  | block statements =>
    refine .inScope ((allKeep law_scopesKept s frames).executeAll statements) fun _ => ?_
    exact ih.executeAll (O.closed h .block)
  | ifElse condition thenBranch elseBranch =>
    rw [execute_ifElse]
    refine .bind (ih.evaluate (O.closed h .ifCondition)) fun {G v m'} _ hc _ => ?_
    refine .still_bind (.note quietLaw_still s 3 _) fun {_ m''} hnote => ?_
    have hm'' : m'' = (note s 3 (branchLine v) m').2 := congrArg Prod.snd hnote.symm
    rw [hm'']
    refine .ite (fun hv => ih.execute (O.closed h (.thenBranch hc hv))) fun hv => ?_
    exact ih.branchOf? fun he => O.closed h (.elseBranch hc (Bool.eq_false_iff.2 hv) he)
  | whileDo condition body => exact ih.execute_whileDo_succ h
  | function name params body =>
    cases name with
    | token t =>
      refine .get fun hm => .still_bind (.token quietLaw_still _) fun ht => ?_
      cases ht
      have hmade : F.Knows O.functions (.function ⟨t, params, body, m.environment⟩) := by
        rintro f ⟨⟩
        exact ⟨hm.environment, O.made h .mk⟩
      refine .bind (.define t hmade) fun _ _ _ => ?_
      exact .still_bind (.note quietLaw_still s 2 _) fun _ => .pure (List.forall_mem_nil _)
    | _ => exact .get fun _ => .throw _
  | ret keyword value =>
    rw [execute_ret]
    refine .bind (ih.valueOf? fun hn => O.closed h (.returned hn)) fun {G v _} _ _ hv => ?_
    exact .pure (by simpa [Completion.values] using hv)
  | _ => exact .throw _

/-- Invoking a function takes one more frame than the other steps, and is looked at apart. -/
theorem next (now : AllUphold s O frames)
    (hinvoke : ∀ {F m f vs}, O.calls ⟨frames + 1, .invoke f vs, m⟩ →
      F.Knows O.functions (.function f) → (∀ v ∈ vs, F.Knows O.functions v) →
      Upholds O.functions F (fun G v => G.Knows O.functions v) (Run.invoke s (frames + 1) f vs) m) :
    AllUphold s O (frames + 1) where
  evaluate := evaluate_succ now
  evaluateAll := evaluateAll_succ now
  apply := apply_succ now
  invoke := hinvoke
  executeAll := executeAll_succ now
  execute := execute_succ now

/-- A call of the evaluator takes one frame or, to invoke a function, two; hence the two bundles. -/
theorem both (O : Origin s) (frames : Nat) :
    AllUphold s O frames ∧ AllUphold s O (frames + 1) := by
  induction frames with
  | zero => exact ⟨zero O, (zero O).next fun _ _ _ => .throw _⟩
  | succ frames ih =>
    obtain ⟨before, now⟩ := ih
    exact ⟨now, now.next (invoke_succ_succ before)⟩

end AllUphold

theorem allUphold {s : Settings} (O : Origin s) (frames : Nat) : AllUphold s O frames :=
  (AllUphold.both O frames).1

variable {s : Settings} {O : Origin s}

theorem upholds_run {c : Call} (hc : O.calls c) (hp : ∀ v ∈ c.passed, F.Knows O.functions v) :
    Upholds O.functions F (fun G vs => ∀ v ∈ vs, G.Knows O.functions v) (c.task.run s c.frames)
      c.machine := by
  obtain ⟨frames, task, m⟩ := c
  have hall := allUphold O frames
  have hone : ∀ {G : ScopeTree} {v}, G.Knows O.functions v → ∀ w ∈ [v], G.Knows O.functions w := by
    intro G v hv w hw
    rwa [List.mem_singleton.1 hw]
  cases task with
  | evaluate n => exact (hall.evaluate hc).map fun _ hv => hone hv
  | evaluateAll ns => exact hall.evaluateAll hc
  | apply f vs paren =>
    obtain ⟨hf, hvs⟩ := List.forall_mem_cons.1 hp
    exact (hall.apply hc hf hvs).map fun _ hv => hone hv
  | invoke f vs =>
    obtain ⟨hf, hvs⟩ := List.forall_mem_cons.1 hp
    exact (hall.invoke hc hf hvs).map fun _ hv => hone hv
  | executeAll ns => exact (hall.executeAll hc).map fun _ hv => hv
  | execute n => exact (hall.execute hc).map fun _ hv => hv

theorem Turned.held {frames k : Nat} {m m' : Machine} {c n : Node}
    (h : Turned (evaluate s frames c) (execute s frames n) k m m')
    (hc : O.calls ⟨frames + 1, .execute (.whileDo c n), m⟩) (hk : k ≤ s.turns)
    (hm : F.Holds O.functions m) : ∃ G, F.Grows G ∧ G.Holds O.functions m' := by
  induction h with
  | none => exact ⟨F, .refl F, hm⟩
  | more h hcondition hv hbody ih =>
    obtain ⟨G, hG, ha⟩ := ih hc (Nat.le_of_succ_le hk) hm
    have hall := allUphold O frames
    obtain ⟨H, hH, hb, -⟩ := (hall.evaluate (O.closed hc (.condition hk h))).ok ha hcondition
    obtain ⟨I, hI, hd, -⟩ := (hall.execute (O.closed hc (.turn hk h hcondition hv))).ok hb hbody
    exact ⟨I, (hG.trans hH).trans hI, hd⟩

/-- A call begins on a machine that a tree holds, if the call that makes it does. -/
theorem Calls.held {c d : Call} (h : Calls s c d) (hc : O.calls c) (hm : F.Holds O.functions c.machine)
    (hp : ∀ v ∈ c.passed, F.Knows O.functions v) :
    ∃ G, F.Grows G ∧ G.Holds O.functions d.machine ∧ ∀ v ∈ d.passed, G.Knows O.functions v := by
  cases h with
  | logicalRight hl _ =>
    obtain ⟨G, hG, hm', -⟩ := ((allUphold O _).evaluate (O.closed hc .logicalLeft)).ok hm hl
    exact ⟨G, hG, hm', List.forall_mem_nil _⟩
  | binaryRight hl =>
    obtain ⟨G, hG, hm', -⟩ := ((allUphold O _).evaluate (O.closed hc .binaryLeft)).ok hm hl
    exact ⟨G, hG, hm', List.forall_mem_nil _⟩
  | arguments hf =>
    obtain ⟨G, hG, hm', -⟩ := ((allUphold O _).evaluate (O.closed hc .callee)).ok hm hf
    exact ⟨G, hG, hm', List.forall_mem_nil _⟩
  | apply hf hvs =>
    obtain ⟨G, hG, ha, hknown⟩ := ((allUphold O _).evaluate (O.closed hc .callee)).ok hm hf
    obtain ⟨H, hH, hb, hall⟩ :=
      ((allUphold O _).evaluateAll (O.closed hc (.arguments hf))).ok ha hvs
    exact ⟨H, hG.trans hH, hb, List.forall_mem_cons.2 ⟨hknown.mono hH, hall⟩⟩
  | argument hbefore =>
    obtain ⟨G, hG, hm', -⟩ := ((allUphold O _).collected hc).ok hm hbefore
    exact ⟨G, hG, hm', List.forall_mem_nil _⟩
  | invoke =>
    exact ⟨F, .refl F, (Keeps.note quietLaw_still s 3 _ _).holds hm, hp⟩
  | body hb hentered =>
    obtain ⟨hf, hvs⟩ := List.forall_mem_cons.1 hp
    obtain ⟨G, hG, hm', hinside⟩ := (Upholds.entered (hf _ rfl).1 hvs).ok hm hentered
    exact ⟨G, hG, hm'.inEnvironment hinside, List.forall_mem_nil _⟩
  | statement hbefore =>
    obtain ⟨G, hG, hm', -⟩ := ((allUphold O _).sequenced hc).ok hm hbefore
    exact ⟨G, hG, hm', List.forall_mem_nil _⟩
  | block => exact ⟨_, ScopeTree.grows_enclose hm.environment, hm.pushScope, List.forall_mem_nil _⟩
  | thenBranch hcond _ =>
    obtain ⟨G, hG, hm', -⟩ := ((allUphold O _).evaluate (O.closed hc .ifCondition)).ok hm hcond
    exact ⟨G, hG, (Keeps.note quietLaw_still s 3 _ _).holds hm', List.forall_mem_nil _⟩
  | elseBranch hcond _ _ =>
    obtain ⟨G, hG, hm', -⟩ := ((allUphold O _).evaluate (O.closed hc .ifCondition)).ok hm hcond
    exact ⟨G, hG, (Keeps.note quietLaw_still s 3 _ _).holds hm', List.forall_mem_nil _⟩
  | condition hk h =>
    obtain ⟨G, hG, hm'⟩ := h.held hc (Nat.le_of_lt hk) hm
    exact ⟨G, hG, hm', List.forall_mem_nil _⟩
  | turn hk h hcond _ =>
    obtain ⟨G, hG, ha⟩ := h.held hc (Nat.le_of_lt hk) hm
    obtain ⟨H, hH, hb, -⟩ := ((allUphold O _).evaluate (O.closed hc (.condition hk h))).ok ha hcond
    exact ⟨H, hG.trans hH, hb, List.forall_mem_nil _⟩
  | _ => exact ⟨F, .refl F, hm, List.forall_mem_nil _⟩

end Run

end Lox
