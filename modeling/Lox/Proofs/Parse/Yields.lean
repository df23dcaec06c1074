import Lox.Proofs.Parse.Steps
import Lox.Proofs.Grammar.Shape

/-!
Soundness of the parse, step by step. A step yields a language from a parser if it advances and,
unless it reports something, the language has what it took, what it gives and what it leaves. In a
sequence, the language of the rest speaks about the tokens taken before.
-/

set_option autoImplicit false

namespace Lox.Parse

open Grammar

variable {α β : Type}

/-- Tokens taken, a result and tokens left. -/
abbrev Language (α : Type) := List Token → α → List Token → Prop

/-- What an outcome from a parser means for a language. -/
def Explains (L : Language α) (p : Parser) : Except Abort α × Parser → Prop
  | (.ok a, p') =>
    p'.diagnostics = p.diagnostics → ∃ ts, p.pending = ts ++ p'.pending ∧ L ts a p'.pending
  | (.error .syntaxError, p') => p'.diagnostics ≠ p.diagnostics
  | (.error .exhausted, _) => True

structure YieldsAt (L : Language α) (step : Parse α) (p : Parser) : Prop where
  advances : Advances p (step p).2
  explains : Explains L p (step p)

/-- The same from every parser with less than `limit` tokens left, inside or outside functions. -/
def Yields (limit : Nat) (fn : Bool) (L : Language α) (step : Parse α) : Prop :=
  ∀ p, p.pending.length < limit → (p.functionDepth ≠ 0 ↔ fn = true) → YieldsAt L step p

namespace YieldsAt

theorem congr {L : Language α} {step step' : Parse α} {p : Parser}
    (h : YieldsAt L step' p) (he : step p = step' p) : YieldsAt L step p :=
  ⟨he ▸ h.advances, he ▸ h.explains⟩

theorem mono {L L' : Language α} {step : Parse α} {p : Parser} (h : YieldsAt L step p)
    (hL : ∀ ts a rest, L ts a rest → L' ts a rest) : YieldsAt L' step p := by
  refine ⟨h.advances, ?_⟩
  have he := h.explains
  cases hs : step p with
  | mk r p' =>
    rw [hs] at he
    cases r with
    | ok a =>
      intro hd
      obtain ⟨ts, hp, ht⟩ := he hd
      exact ⟨ts, hp, hL ts a _ ht⟩
    | error e => cases e <;> exact he

/-- What is next at the start may be used in the end. -/
theorem assume {L : Language α} {step : Parse α} {p : Parser} {P : List Token → Prop}
    (h : YieldsAt (fun ts a rest => P (ts ++ rest) → L ts a rest) step p) (hP : P p.pending) :
    YieldsAt L step p := by
  refine ⟨h.advances, ?_⟩
  have he := h.explains
  cases hs : step p with
  | mk r p' =>
    rw [hs] at he
    cases r with
    | ok a =>
      intro hd
      obtain ⟨ts, hp, ht⟩ := he hd
      exact ⟨ts, hp, ht (hp ▸ hP)⟩
    | error e => cases e <;> exact he

theorem bind {L : Language α} {M : Language β} {x : Parse α}
    {f : α → Parse β} {p : Parser} (hx : YieldsAt L x p)
    (hf : ∀ a p', Advances p p' → YieldsAt
      (fun us b rest => ∀ ts, L ts a (us ++ rest) → M (ts ++ us) b rest) (f a) p') :
    YieldsAt M (x >>= f) p := by
  obtain ⟨ha, he⟩ := hx
  cases hs : x p with
  | mk r p₁ =>
    rw [hs] at ha he
    cases r with
    | error e =>
      refine ⟨?_, ?_⟩ <;> rw [bind_apply, hs]
      · exact ha
      · cases e <;> exact he
    | ok a =>
      obtain ⟨hb, hg⟩ := hf a p₁ ha
      refine ⟨?_, ?_⟩ <;> rw [bind_apply, hs]
      · exact ha.trans hb
      · change Explains M p (f a p₁)
        cases ht : f a p₁ with
        | mk r p₂ =>
          rw [ht] at hb hg
          cases r with
          | error e =>
            cases e with
            | exhausted => trivial
            | syntaxError => exact fun hd => hg (ha.squeeze hb hd).2
          | ok b =>
            intro hd
            obtain ⟨hd₁, hd₂⟩ := ha.squeeze hb hd
            obtain ⟨ts, hp, ht⟩ := he hd₁
            obtain ⟨us, hp', hu⟩ := hg hd₂
            exact ⟨ts ++ us, by rw [hp, hp', List.append_assoc], hu ts (hp' ▸ ht)⟩

theorem advance {limit : Nat} {fn : Bool} {source : Source} {M : Language β}
    {f : Token → Parse β} {p : Parser} {t : Token} {rest : List Token} (hp : p.pending = t :: rest)
    (hlt : p.pending.length < limit) (hd : p.functionDepth ≠ 0 ↔ fn = true)
    (hf : Yields (limit - 1) fn (fun us b rest => M (t :: us) b rest) (f t)) :
    YieldsAt M (Parse.advance source >>= f) p := by
  have hs : (Parse.advance source >>= f) p = f t { p with pending := rest } := by
    rw [bind_apply, advance_apply, hp]
    rfl
  have hr : rest <:+ p.pending := by rw [hp]; exact List.suffix_cons t rest
  rw [hp, List.length_cons] at hlt
  obtain ⟨ha, he⟩ := hf { p with pending := rest } (Nat.lt_sub_of_add_lt hlt) hd
  refine ⟨?_, ?_⟩ <;> rw [hs]
  · exact (Advances.drop hr).trans ha
  · cases ht : f t { p with pending := rest } with
    | mk r p' =>
      rw [ht] at he
      cases r with
      | error e => cases e <;> exact he
      | ok b =>
        intro hd
        obtain ⟨us, hq, hu⟩ := he hd
        have hq' : rest = us ++ p'.pending := hq
        exact ⟨t :: us, by rw [hp, hq', List.cons_append], hu⟩

end YieldsAt

namespace Yields

variable {limit : Nat} {fn : Bool} {source : Source}

theorem mono {L L' : Language α} {step : Parse α} (h : Yields limit fn L step)
    (hL : ∀ ts a rest, L ts a rest → L' ts a rest) : Yields limit fn L' step :=
  fun p hp hd => (h p hp hd).mono hL

theorem weaken {L : Language α} {step : Parse α} {less : Nat} (h : Yields limit fn L step)
    (hl : less ≤ limit) : Yields less fn L step :=
  fun p hp hd => h p (Nat.lt_of_lt_of_le hp hl) hd

theorem bind {L : Language α} {M : Language β} {x : Parse α}
    {f : α → Parse β} (hx : Yields limit fn L x)
    (hf : ∀ a, Yields limit fn (fun us b rest => ∀ ts, L ts a (us ++ rest) → M (ts ++ us) b rest)
      (f a)) :
    Yields limit fn M (x >>= f) := by
  intro p hp hd
  refine (hx p hp hd).bind fun a p' ha => hf a p' (Nat.lt_of_le_of_lt ha.length_le hp) ?_
  rw [ha.functionDepth]
  exact hd

theorem pure {L : Language α} {a : α} (h : ∀ rest, L [] a rest) :
    Yields limit fn L (pure a : Parse α) :=
  fun p _ _ => ⟨.refl p, fun _ => ⟨[], rfl, h p.pending⟩⟩

theorem map {L : Language α} {M : Language β} {x : Parse α} {f : α → β}
    (hx : Yields limit fn L x) (h : ∀ ts a rest, L ts a rest → M ts (f a) rest) :
    Yields limit fn M (f <$> x) := by
  rw [map_eq_pure_bind]
  exact hx.bind fun a => pure fun rest ts ht => by simpa using h ts a rest ht

theorem exhausted (L : Language α) : Yields limit fn L (throw .exhausted) :=
  fun p _ _ => ⟨.refl p, trivial⟩

theorem abort (L : Language α) {x : Parse α}
    (hx : ∀ p, ∃ d, x p = (.error .syntaxError, p.report d)) : Yields limit fn L x := by
  intro p _ _
  obtain ⟨d, hd⟩ := hx p
  refine ⟨?_, ?_⟩ <;> rw [hd]
  · exact .report p d
  · exact Advances.report_ne p d

theorem fail (L : Language α) (c : Complaint) :
    Yields limit fn L (Parse.fail source c) :=
  abort L fun p => ⟨_, fail_apply source c p⟩

/-- A look at what comes next takes nothing. -/
theorem look {L : Language β} {x : Parse α} {f : α → Parse β}
    (hx : ∀ p, ∃ a, x p = (.ok a, p)) (hf : ∀ a, Yields limit fn L (f a)) :
    Yields limit fn L (x >>= f) := by
  intro p hp hd
  obtain ⟨a, ha⟩ := hx p
  refine (hf a p hp hd).congr ?_
  rw [bind_apply, ha]

/-- The next token is known from then on. -/
theorem peek (hl : source.last.isEnd) {L : Language β} {f : Token → Parse β}
    (hn : ∀ t, t.kind = .eof → Yields limit fn L (f t))
    (hs : ∀ p t rest, p.pending = t :: rest → p.pending.length < limit →
      (p.functionDepth ≠ 0 ↔ fn = true) → YieldsAt L (f t) p) :
    Yields limit fn L (Parse.peek source >>= f) := by
  intro p hp hd
  have he : (Parse.peek source >>= f) p = f (p.pending.headD source.last) p := rfl
  cases hq : p.pending with
  | nil =>
    rw [hq, List.headD_nil] at he
    exact (hn source.last (by simpa [Token.isEnd] using hl) p hp hd).congr he
  | cons t rest =>
    rw [hq, List.headD_cons] at he
    exact (hs p t rest hq hp hd).congr he

theorem nextIs {L : Language β} {kind : Kind} {f : Bool → Parse β}
    (hf : ∀ b, Yields limit fn L (f b)) : Yields limit fn L (Parse.nextIs source kind >>= f) :=
  look (fun p => ⟨_, nextIs_apply source kind p⟩) hf

/-- A token of one of the kinds is taken, or the step goes on without. -/
theorem accept (hl : source.last.isEnd) {kinds : List Kind} (hk : .eof ∉ kinds)
    {L : Language β} {f : Option Token → Parse β}
    (hn : Yields limit fn (fun us b rest => Stops kinds (us ++ rest) → L us b rest) (f none))
    (hs : ∀ t, t.kind ∈ kinds →
      Yields (limit - 1) fn (fun us b rest => L (t :: us) b rest) (f (some t))) :
    Yields limit fn L (accept? source kinds >>= f) := by
  intro p hp hd
  by_cases hc : kinds.contains (p.pending.headD source.last).kind
  · cases hq : p.pending with
    | nil =>
      have hle : source.last.kind = .eof := by simpa [Token.isEnd] using hl
      rw [hq, List.headD_nil, hle] at hc
      exact absurd (by simpa using hc) hk
    | cons t rest =>
      rw [hq, List.headD_cons] at hc
      have ht : t.kind ∈ kinds := by simpa using hc
      have he : (accept? source kinds >>= f) p =
          (Parse.advance source >>= fun t => f (some t)) p := by
        simp [bind_apply, accept?_apply, hq, ht]
      exact (YieldsAt.advance (f := fun t => f (some t)) hq hp hd (hs t ht)).congr he
  · have he : (accept? source kinds >>= f) p = f none p := by
      rw [bind_apply, accept?_apply, if_neg hc]
    refine ((hn p hp hd).assume ?_).congr he
    cases hq : p.pending with
    | nil => exact .nil
    | cons t rest =>
      rw [hq, List.headD_cons] at hc
      exact .cons (by simpa using hc)

theorem expect (hl : source.last.isEnd) {kind : Kind} (hk : kind ≠ .eof) {c : Complaint}
    {L : Language β} {f : Token → Parse β}
    (hs : ∀ t, t.kind = kind → Yields (limit - 1) fn (fun us b rest => L (t :: us) b rest) (f t)) :
    Yields limit fn L (Parse.expect source kind c >>= f) := by
  have he : Parse.expect source kind c >>= f =
      accept? source [kind] >>= fun o => o.elim (Parse.fail source c >>= f) f := by
    funext p
    simp only [bind_apply, expect_apply, accept?_apply, List.contains_cons, List.contains_nil,
      Bool.or_false, beq_iff_eq]
    by_cases hc : (p.pending.headD source.last).kind = kind
    · simp only [if_pos hc, Option.elim_some]
    · simp only [if_neg hc, Option.elim_none, bind_apply, fail_apply]
  rw [he]
  refine accept hl (by simpa using hk.symm) (abort _ fun p => ⟨?_, ?_⟩) fun t ht =>
    hs t (by simpa using ht)
  · exact .at (p.pending.headD source.last) c
  · rw [Option.elim_none, bind_apply, fail_apply]

/-- A loop that extends a node takes a row of segments. -/
theorem extend {S : Node → List Token → Node → Prop} {step : Node → Parse (Option Node)}
    (hs : ∀ n, Yields limit fn (fun ts o _ => o.elim (ts = []) (S n ts)) (step n)) (turns : Nat)
    (n : Node) : Yields limit fn (fun ts m _ => Chain S n ts m) (Parse.extend step turns n) := by
  induction turns generalizing n with
  | zero => exact pure fun _ => .nil
  | succ turns ih =>
    refine (hs n).bind fun o => ?_
    cases o with
    | none => exact pure fun _ ts ht => by rw [show ts = [] from ht]; exact .nil
    | some m => exact (ih m).mono fun us l _ hc ts ht => .cons ht hc

/-- After a report nothing is yielded any more. -/
theorem report {L M : Language β} {f : Unit → Parse β} (t : Token) (c : Complaint)
    (hf : Yields limit fn L (f ())) : Yields limit fn M (Parse.report t c >>= f) := by
  intro p hp hd
  obtain ⟨ha, he⟩ := hf (p.report (.at t c)) hp hd
  have hr := Advances.report p (.at t c)
  have hne : (f () (p.report (.at t c))).2.diagnostics ≠ p.diagnostics := fun hd =>
    Advances.report_ne p _ (hr.squeeze ha hd).1
  refine ⟨hr.trans ha, ?_⟩
  change Explains M p (f () (p.report (.at t c)))
  cases ht : f () (p.report (.at t c)) with
  | mk r p' =>
    rw [ht] at hne
    cases r with
    | ok b => exact fun hd => absurd hd hne
    | error e =>
      cases e with
      | exhausted => trivial
      | syntaxError => exact hne

theorem ite {L : Language α} {c : Prop} [Decidable c] {x y : Parse α}
    (hx : c → Yields limit fn L x) (hy : ¬ c → Yields limit fn L y) :
    Yields limit fn L (if c then x else y) := by
  split
  next h => exact hx h
  next h => exact hy h

theorem inFunction {L : Language α} {step : Parse α} (h : Yields limit true L step) :
    Yields limit fn L (Parse.inFunction step) := by
  intro p hp _
  obtain ⟨ha, he⟩ := h { p with functionDepth := p.functionDepth + 1 } hp (by simp)
  refine ⟨⟨ha.pending, ha.diagnostics, ?_⟩, ?_⟩
  · exact congrArg (· - 1) ha.functionDepth
  · unfold Parse.inFunction
    cases hs : step { p with functionDepth := p.functionDepth + 1 } with
    | mk r p' =>
      rw [hs] at he
      cases r with
      | ok a => exact he
      | error e => cases e <;> exact he

/-- A step that recovers yields what it yields without, and never nothing. -/
theorem recover {L : Language α} {step : Parse α} (h : Yields limit fn L step) :
    Yields limit fn (fun ts o rest => ∃ a, o = some a ∧ L ts a rest) (Parse.recover step) := by
  intro p hp hd
  obtain ⟨ha, he⟩ := h p hp hd
  cases hs : step p with
  | mk r p' =>
    rw [hs] at ha he
    refine ⟨?_, ?_⟩ <;> unfold Parse.recover <;> rw [hs]
    · cases r with
      | ok a => exact ha
      | error e =>
        cases e with
        | exhausted => exact ha
        | syntaxError => exact ha.trans (.synchronize p')
    · cases r with
      | ok a =>
        intro hd
        obtain ⟨ts, hp, ht⟩ := he hd
        exact ⟨ts, hp, a, rfl, ht⟩
      | error e =>
        cases e with
        | exhausted => trivial
        | syntaxError =>
          intro hd
          exact absurd ((ha.squeeze (.synchronize p') hd).1) he

/-- Something is reported first where a condition holds, so that nothing is yielded there. -/
theorem reportIf {q : Prop} [Decidable q] {L M : Language β} {source : Source} {x : Parse β}
    (c : Complaint) (hx : Yields limit fn L x) (hM : ¬ q → ∀ us b rest, L us b rest → M us b rest) :
    Yields limit fn M (if q then (do let t ← Parse.peek source; Parse.report t c; x) else x) := by
  refine ite (fun _ => ?_) fun hq => hx.mono (hM hq)
  exact look (fun p => ⟨_, peek_apply source p⟩) fun t => report t c hx

/-- A list with commas in between. The turns left are more than the tokens left, so the list never
ends after a comma. -/
theorem separated {I : List Token → Node → Prop} {item : Parse Node} {excess : Complaint}
    (hl : source.last.isEnd) (hi : Yields limit fn (fun ts n _ => I ts n) item) (turns : Nat)
    (done : Array Node) (ht : turns ≤ limit) :
    Yields turns fn (fun ts ns _ => ∃ items, ns = done.toList ++ items ∧ Separated I ts items ∧
      ns.length ≤ mostArguments) (Parse.separated source excess item turns done) := by
  induction turns generalizing done with
  | zero => exact fun p hp => absurd hp (Nat.not_lt_zero _)
  | succ turns ih =>
    simp only [Parse.separated]
    refine reportIf (L := fun ts ns _ => ∃ items, ns = done.toList ++ items ∧ Separated I ts items ∧
      (done.size < mostArguments → ns.length ≤ mostArguments)) excess ?_ fun hd => ?_
    · refine (hi.weaken ht).bind fun n =>
        accept hl (by decide) (pure fun _ _ ts hn => ?_) fun t hc => ?_
      · exact ⟨[n], by simp, by simpa using .one hn, fun hd => by simpa using Nat.succ_le_of_lt hd⟩
      · refine (ih (done.push n) (Nat.le_of_succ_le ht)).mono ?_
        rintro us ns _ ⟨items, rfl, ha, hs⟩ ts hn
        exact ⟨n :: items, by simp, .more hn (by simpa using hc) ha, fun _ => hs⟩
    · rintro ts ns _ ⟨items, hn, ha, hs⟩
      exact ⟨items, hn, ha, hs (Nat.lt_of_not_le hd)⟩

/-- Items up to a brace, for any relation closed under rows of them. -/
theorem untilBrace {I : List Token → Node → Prop} {A : List Token → List Node → Prop}
    {item : Parse (Option Node)} (hnil : A [] [])
    (hcons : ∀ {ts us n ns}, I ts n → A us ns → A (ts ++ us) (n :: ns))
    (hi : Yields limit fn (fun ts o _ => ∃ n, o = some n ∧ I ts n) item) (turns : Nat)
    (done : Array Node) :
    Yields limit fn (fun ts ns _ => ∃ items, ns = done.toList ++ items ∧ A ts items)
      (Parse.untilBrace source item turns done) := by
  induction turns generalizing done with
  | zero => exact pure fun _ => ⟨[], by simp, hnil⟩
  | succ turns ih =>
    refine nextIs fun brace => look (fun p => ⟨_, atEnd_apply p⟩) fun ending => ?_
    refine ite (fun _ => pure fun _ => ⟨[], by simp, hnil⟩) fun _ => hi.bind fun o => ?_
    cases o with
    | none => exact (ih done).mono fun us ns _ _ ts ⟨n, hn, _⟩ => by simp at hn
    | some n =>
      refine (ih (done.push n)).mono ?_
      rintro us ns _ ⟨items, rfl, ha⟩ ts ⟨m, hm, h⟩
      obtain rfl : n = m := Option.some.inj hm
      exact ⟨n :: items, by simp, hcons h ha⟩

end Yields

end Lox.Parse
