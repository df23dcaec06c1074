import Lox.Proofs.Parse.Steps
import Lox.Proofs.Grammar.Shape

/-!
Completeness of the parse, step by step. A step reads a token list before another one if it takes
exactly the first and reports nothing, or else runs out of frames.
-/

set_option autoImplicit false

namespace Lox.Parse

open Grammar

variable {α β : Type}

/-- From every parser with less than `limit` tokens left, inside or outside functions. -/
def Reads (limit : Nat) (fn : Bool) (step : Parse α) (ts : List Token) (a : α)
    (rest : List Token) : Prop :=
  ∀ d k, (ts ++ rest).length < limit → (k ≠ 0 ↔ fn = true) →
    step ⟨ts ++ rest, d, k⟩ = (.ok a, ⟨rest, d, k⟩) ∨
      ∃ p, step ⟨ts ++ rest, d, k⟩ = (.error .exhausted, p)

theorem headD_kind_notMem {source : Source} (hl : source.last.isEnd) {kinds : List Kind}
    (hk : .eof ∉ kinds) {ts : List Token} (h : Stops kinds ts) :
    (ts.headD source.last).kind ∉ kinds := by
  cases ts with
  | nil =>
    have hle : source.last.kind = .eof := by simpa [Token.isEnd] using hl
    rw [List.headD_nil, hle]
    exact hk
  | cons t ts => exact h t rfl

namespace Reads

variable {limit : Nat} {fn : Bool} {source : Source} {ts us rest : List Token}

theorem within {step : Parse α} {a : α}
    (h : (ts ++ rest).length < limit → Reads limit fn step ts a rest) :
    Reads limit fn step ts a rest := fun d k hlt => h hlt d k hlt

theorem pure (a : α) : Reads limit fn (pure a : Parse α) [] a rest := fun _ _ _ _ => .inl rfl

theorem exhausted (ts : List Token) (a : α) (rest : List Token) :
    Reads limit fn (throw .exhausted) ts a rest := fun _ _ _ _ => .inr ⟨_, rfl⟩

theorem bind {x : Parse α} {f : α → Parse β} {a : α} {b : β}
    (hx : Reads limit fn x ts a (us ++ rest)) (hf : Reads limit fn (f a) us b rest) :
    Reads limit fn (x >>= f) (ts ++ us) b rest := by
  intro d k hlt hd
  rw [List.append_assoc] at hlt ⊢
  rw [bind_apply]
  rcases hx d k hlt hd with h | ⟨p, h⟩
  · rw [h]
    exact hf d k (Nat.lt_of_le_of_lt (by simp) hlt) hd
  · exact .inr ⟨p, by rw [h]⟩

theorem bindLast {x : Parse α} {f : α → Parse β} {a : α} {b : β} (hx : Reads limit fn x ts a rest)
    (hf : Reads limit fn (f a) [] b rest) : Reads limit fn (x >>= f) ts b rest := by
  have hx' : Reads limit fn x ts a ([] ++ rest) := hx
  have h := bind hx' hf
  rwa [List.append_nil] at h

theorem map {x : Parse α} {f : α → β} {a : α} (hx : Reads limit fn x ts a rest) :
    Reads limit fn (f <$> x) ts (f a) rest := by
  rw [map_eq_pure_bind]
  exact hx.bindLast (pure (f a))

/-- A look at what comes next takes nothing. -/
theorem look {x : Parse α} {f : α → Parse β} {b : β} {g : Parser → α}
    (hx : ∀ p, x p = (.ok (g p), p))
    (hf : ∀ d k, Reads limit fn (f (g ⟨ts ++ rest, d, k⟩)) ts b rest) :
    Reads limit fn (x >>= f) ts b rest := by
  intro d k hlt hd
  rw [bind_apply, hx]
  exact hf d k d k hlt hd

theorem peek {t : Token} {f : Token → Parse β} {b : β}
    (hf : Reads limit fn (f t) (t :: ts) b rest) :
    Reads limit fn (Parse.peek source >>= f) (t :: ts) b rest :=
  look (peek_apply source) fun _ _ => hf

theorem advance {t : Token} {f : Token → Parse β} {b : β} (hf : Reads limit fn (f t) ts b rest) :
    Reads limit fn (Parse.advance source >>= f) (t :: ts) b rest := by
  intro d k hlt hd
  exact hf d k (Nat.lt_of_succ_lt hlt) hd

theorem nextIs_true {t : Token} {kind : Kind} {f : Bool → Parse β} {b : β}
    (hn : ts ++ rest = t :: us) (ht : t.kind = kind) (hf : Reads limit fn (f true) ts b rest) :
    Reads limit fn (Parse.nextIs source kind >>= f) ts b rest :=
  look (nextIs_apply source kind) fun _ _ => by simpa [hn, ht] using hf

theorem nextIs_false (hl : source.last.isEnd) {kind : Kind} (hk : kind ≠ .eof) {f : Bool → Parse β}
    {b : β} (ht : Stops [kind] (ts ++ rest)) (hf : Reads limit fn (f false) ts b rest) :
    Reads limit fn (Parse.nextIs source kind >>= f) ts b rest := by
  refine look (nextIs_apply source kind) fun _ _ => ?_
  have h := headD_kind_notMem hl (by simpa using hk.symm) ht
  rwa [decide_eq_false (by simpa using h)]

theorem accept_some {kinds : List Kind} {t : Token} {f : Option Token → Parse β} {b : β}
    (ht : t.kind ∈ kinds) (hf : Reads limit fn (f (some t)) ts b rest) :
    Reads limit fn (accept? source kinds >>= f) (t :: ts) b rest := by
  have he : ∀ d k, (accept? source kinds >>= f) ⟨t :: ts ++ rest, d, k⟩ =
      (Parse.advance source >>= fun t => f (some t)) ⟨t :: ts ++ rest, d, k⟩ := by
    simp [bind_apply, accept?_apply, ht]
  intro d k
  rw [he]
  exact advance (f := fun t => f (some t)) hf d k

theorem accept_none (hl : source.last.isEnd) {kinds : List Kind} (hk : .eof ∉ kinds)
    {f : Option Token → Parse β} {b : β} (ht : Stops kinds (ts ++ rest))
    (hf : Reads limit fn (f none) ts b rest) :
    Reads limit fn (accept? source kinds >>= f) ts b rest := by
  have hc := headD_kind_notMem hl hk ht
  have he : ∀ d k, (accept? source kinds >>= f) ⟨ts ++ rest, d, k⟩ = f none ⟨ts ++ rest, d, k⟩ := by
    intro d k
    rw [bind_apply, accept?_apply, if_neg (by simpa using hc)]
  intro d k
  rw [he]
  exact hf d k

theorem expect {kind : Kind} {c : Complaint} {t : Token} {f : Token → Parse β} {b : β}
    (ht : t.kind = kind) (hf : Reads limit fn (f t) ts b rest) :
    Reads limit fn (Parse.expect source kind c >>= f) (t :: ts) b rest := by
  have he : ∀ d k, (Parse.expect source kind c >>= f) ⟨t :: ts ++ rest, d, k⟩ =
      (Parse.advance source >>= f) ⟨t :: ts ++ rest, d, k⟩ := by
    simp [bind_apply, expect_apply, ht]
  intro d k
  rw [he]
  exact advance hf d k

theorem expectLast {kind : Kind} {c : Complaint} {t : Token} {f : Token → Parse β} {b : β}
    (ht : t.kind = kind) (hf : Reads limit fn (f t) [] b rest) :
    Reads limit fn (Parse.expect source kind c >>= f) [t] b rest := expect ht hf

theorem inFunction {step : Parse α} {a : α} (h : Reads limit true step ts a rest) :
    Reads limit fn (Parse.inFunction step) ts a rest := by
  intro d k hlt _
  unfold Parse.inFunction
  rcases h d (k + 1) hlt (by simp) with h | ⟨p, h⟩
  · exact .inl (by simp only [h, Nat.add_sub_cancel])
  · exact .inr ⟨_, by rw [h]⟩

theorem recover {step : Parse α} {a : α} (h : Reads limit fn step ts a rest) :
    Reads limit fn (Parse.recover step) ts (some a) rest := by
  intro d k hlt hd
  unfold Parse.recover
  rcases h d k hlt hd with h | ⟨p, h⟩
  · exact .inl (by rw [h])
  · exact .inr ⟨p, by rw [h]⟩

/-- A loop that extends a node reads a row of segments if it reads each one before the others. -/
theorem extend {S : Node → List Token → Node → Prop} {step : Node → Parse (Option Node)}
    {l n : Node} {vs : List Token} (hlast : ∀ n, Reads limit fn (step n) [] none rest)
    (hstep : ∀ {l m n us vs}, S l us m → Chain S m vs n →
      us ≠ [] ∧ Reads limit fn (step l) us (some m) (vs ++ rest))
    (hc : Chain S l vs n) (turns : Nat) (hvs : vs.length ≤ turns) :
    Reads limit fn (Parse.extend step turns l) vs n rest := by
  induction hc generalizing turns with
  | nil =>
    cases turns with
    | zero => exact pure _
    | succ turns => exact (hlast _).bindLast (pure _)
  | cons h hs ih =>
    obtain ⟨hne, hr⟩ := hstep h hs
    have hpos := List.length_pos_iff.2 hne
    rw [List.length_append] at hvs
    cases turns with
    | zero => omega
    | succ turns => exact hr.bind (ih turns (by omega))

/-- A list with commas is read if each item is read before a comma and before what follows. -/
theorem separated (hl : source.last.isEnd) {I : List Token → Node → Prop} {item : Parse Node}
    {excess : Complaint} {ns : List Node} (hrest : Stops [.comma] rest)
    (hi : ∀ {ts n us}, I ts n → (us = rest ∨ ∃ comma vs, us = comma :: vs ∧ comma.kind = .comma) →
      Reads limit fn item ts n us)
    (h : Separated I ts ns) (turns : Nat) (done : Array Node) (hts : ts.length < turns)
    (hs : done.size + ns.length ≤ mostArguments) :
    Reads limit fn (Parse.separated source excess item turns done) ts (done.toList ++ ns) rest := by
  induction h generalizing turns done with
  | @one ts n h =>
    cases turns with
    | zero => omega
    | succ turns =>
      simp only [Parse.separated]
      rw [if_neg (by simp at hs; omega)]
      refine (hi h (.inl rfl)).bindLast (accept_none hl (by decide) hrest ?_)
      simpa using pure (done.toList ++ [n])
  | @more ts us n ns comma h hc hs' ih =>
    cases turns with
    | zero => omega
    | succ turns =>
      simp only [Parse.separated]
      rw [if_neg (by simp at hs; omega)]
      simp only [List.length_append, List.length_cons] at hts hs
      refine (hi h (.inr ⟨comma, us ++ rest, rfl, hc⟩)).bind (accept_some (by simp [hc]) ?_)
      simpa using ih turns (done.push n) (by omega) (by simp; omega)

end Reads

end Lox.Parse
