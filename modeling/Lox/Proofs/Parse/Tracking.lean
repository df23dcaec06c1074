import Lox.Proofs.Grammar.Firsts
import Lox.Proofs.Parse.Isolation

/-!
What may still come at a point of a parse. A step tracks a language from one position to another if, of
the words of the first language that go on with the next token, just those have the tokens taken in front
and a word of the second language after them. The step derails where no word goes on with the next token,
and it complains about that one. Main statement: sequences, choices and loops track what their parts do.
-/

set_option autoImplicit false

namespace Lox.Parse

open Grammar
open Grammar.Words (ofKinds Possible Avoids Begins)
open scoped Computability

variable {α β : Type} {source : Source} {K L M : Words} {p q r : Parser}

/-- The first complaint of a stretch that unwinds. There are words of the language that go on after the
tokens before it, and none that goes on with the token it is about. -/
inductive Derails (source : Source) (L : Words) (p q : Parser) : Prop where
  | mk {us vs : List Token} {c : Complaint} {before after : List Diagnostic}
      (hp : p.pending = us ++ vs)
      (hq : q.diagnostics.toList =
        p.diagnostics.toList ++ before ++ .at (vs.headD source.last) c :: after)
      (hb : ∀ d ∈ before, d.complaint.unwinds = false) (hc : c.unwinds = true)
      (hv : ∃ w, us ++ w ∈ L) (hn : ∀ w, us ++ vs.headD source.last :: w ∉ L)

theorem Derails.advance (h : Derails source L p q) (hr : Advances q r) : Derails source L p r := by
  obtain ⟨hp, hq, hb, hc, hv, hn⟩ := h
  obtain ⟨more, hmore⟩ := hr.diagnostics
  rw [hq, List.append_assoc _ (_ :: _), List.cons_append] at hmore
  exact ⟨hp, hmore.symm, hb, hc, hv, hn⟩

/-- A stretch without a complaint that unwinds, and what may come before and after it. -/
inductive Passes (source : Source) (L M : Words) (p q : Parser) : Prop where
  | mk {us : List Token} (hp : p.pending = us ++ q.pending) (hq : Quiet p q)
      (hin : ∀ w ∈ M, us ++ w ∈ L)
      (hout : ∀ w, w.head? = some (q.pending.headD source.last) → us ++ w ∈ L → w ∈ M)

namespace Passes

theorem refl (L : Words) (p : Parser) : Passes source L L p p :=
  ⟨(List.nil_append _).symm, .refl p, fun _ hw => hw, fun _ _ hw => hw⟩

/-- After the tokens taken comes the next one. -/
theorem head?_append {us vs w : List Token} {t : Token} (h : w.head? = some (vs.headD t)) :
    (us ++ w).head? = some ((us ++ vs).headD t) := by
  cases us with
  | nil => exact h
  | cons u us => rfl

theorem trans {N : Words} (h : Passes source L M p q) (h' : Passes source M N q r) :
    Passes source L N p r := by
  obtain ⟨hp, hq, hin, hout⟩ := h
  obtain ⟨hp', hq', hin', hout'⟩ := h'
  refine ⟨by rw [hp, hp', List.append_assoc], hq.trans hq', fun w hw => ?_, fun w hw hL => ?_⟩
  · rw [List.append_assoc]
    exact hin _ (hin' w hw)
  · rw [List.append_assoc] at hL
    exact hout' w hw (hout _ (by rw [hp']; exact head?_append hw) hL)

theorem derails (h : Passes source L M p q) (h' : Derails source M q r) : Derails source L p r := by
  obtain ⟨hp, ⟨ds, hds, hquiet⟩, hin, hout⟩ := h
  obtain ⟨hp', hr, hb, hc, ⟨w, hw⟩, hn⟩ := h'
  have hpending := hp.trans (by rw [hp', ← List.append_assoc])
  refine ⟨hpending, by rw [hr, hds, List.append_assoc _ ds],
    List.forall_mem_append.2 ⟨hquiet, hb⟩, hc, ⟨w, ?_⟩, fun w hL => ?_⟩
  · rw [List.append_assoc]
    exact hin _ hw
  · rw [List.append_assoc] at hL
    exact hn w (hout _ (by rw [hp']; exact head?_append rfl) hL)

end Passes

/-- How a step may end that tracks a language. -/
inductive Tracked (source : Source) (L : Words) (M : α → Words) (p : Parser) :
    Except Abort α × Parser → Prop where
  | ok {a : α} {q : Parser} (h : Passes source L (M a) p q) : Tracked source L M p (.ok a, q)
  | derailed {r : Except Abort α} {q : Parser} (h : Derails source L p q) :
      Tracked source L M p (r, q)
  | exhausted {q : Parser} : Tracked source L M p (.error .exhausted, q)

theorem Passes.tracked {N : β → Words} {o : Except Abort β × Parser} (h : Passes source L M p q)
    (ho : Tracked source M N q o) : Tracked source L N p o := by
  cases ho with
  | ok h' => exact .ok (h.trans h')
  | derailed h' => exact .derailed (h.derails h')
  | exhausted => exact .exhausted

structure TracksAt (source : Source) (L : Words) (x : Parse α) (M : α → Words) (p : Parser) :
    Prop where
  advances : Advances p (x p).2
  tracked : Tracked source L M p (x p)

/-- The same wherever fewer than `n` tokens are left. -/
def Tracks (source : Source) (n : Nat) (L : Words) (x : Parse α) (M : α → Words) : Prop :=
  ∀ p, p.pending.length < n → TracksAt source L x M p

/-- Only the end mark is next at the end. -/
theorem exists_pending (hl : source.last.isEnd) (hk : (p.pending.headD source.last).kind ≠ .eof) :
    ∃ t rest, p.pending = t :: rest := by
  cases hq : p.pending with
  | nil =>
    rw [hq, List.headD_nil] at hk
    exact absurd (by simpa [Token.isEnd] using hl) hk
  | cons t rest => exact ⟨t, rest, rfl⟩

/-- One more turn ends at a closing brace or the end, or takes an item. -/
theorem untilBrace_succ (source : Source) (item : Parse (Option Node)) (turns : Nat)
    (done : Array Node) (p : Parser) : untilBrace source item (turns + 1) done p =
      if (p.pending.headD source.last).kind = .rightBrace ∨ p.pending = [] then
        (pure done.toList : Parse _) p
      else (item >>= fun o => untilBrace source item turns (o.elim done done.push)) p := by
  simp only [untilBrace, bind_apply, nextIs_apply, atEnd_apply, Bool.or_eq_true, decide_eq_true_eq,
    List.isEmpty_iff]
  split
  · rfl
  · rw [bind_apply]
    rcases item p with ⟨_ | _ | _, _⟩ <;> rfl

namespace TracksAt

variable {N : β → Words}

theorem congr {x y : Parse α} {M : α → Words} (h : TracksAt source L y M p) (he : x p = y p) :
    TracksAt source L x M p :=
  ⟨he ▸ h.advances, he ▸ h.tracked⟩

theorem bind {x : Parse α} {f : α → Parse β} {M : α → Words} (hx : TracksAt source L x M p)
    (hf : ∀ a q, x p = (.ok a, q) → TracksAt source (M a) (f a) N q) :
    TracksAt source L (x >>= f) N p := by
  obtain ⟨ha, ht⟩ := hx
  rcases hs : x p with ⟨e | a, q⟩ <;> rw [hs] at ha ht
  · refine ⟨?_, ?_⟩ <;> rw [bind_apply, hs]
    · exact ha
    · cases ht with
      | derailed h => exact .derailed h
      | exhausted => exact .exhausted
  · obtain ⟨hb, hu⟩ := hf a q hs
    refine ⟨?_, ?_⟩ <;> rw [bind_apply, hs]
    · exact ha.trans hb
    · cases ht with
      | derailed h => exact .derailed (h.advance hb)
      | ok h => exact h.tracked hu

/-- Only the words count that go on with the next token. -/
theorem narrow {x : Parse α} {M : α → Words} (h : TracksAt source K x M p) (hK : ∀ w ∈ K, w ∈ L)
    (hL : ∀ w, (p.pending.headD source.last) :: w ∈ L → p.pending.headD source.last :: w ∈ K) :
    TracksAt source L x M p := by
  have hpasses : Passes source L K p p := by
    refine ⟨(List.nil_append _).symm, .refl p, hK, fun w hw hwL => ?_⟩
    obtain ⟨us, rfl⟩ := List.head?_eq_some_iff.1 hw
    exact hL us hwL
  exact ⟨h.advances, hpasses.tracked h.tracked⟩

/-- A token that is taken is the first of the words from there on. -/
theorem take {x y : Parse α} {M : α → Words} {t : Token} {rest : List Token}
    (hp : p.pending = t :: rest) (he : x p = y { p with pending := rest })
    (hL : ∀ w, t :: w ∈ L ↔ w ∈ K) (hy : TracksAt source K y M { p with pending := rest }) :
    TracksAt source L x M p := by
  have hpasses : Passes source L K p { p with pending := rest } :=
    @Passes.mk _ _ _ _ _ [t] hp (.refl p) (fun w hw => (hL w).2 hw) fun w _ hw => (hL w).1 hw
  have hdrop : Advances p { p with pending := rest } := .drop (hp ▸ List.suffix_cons t rest)
  refine ⟨?_, ?_⟩ <;> rw [he]
  · exact hdrop.trans hy.advances
  · exact hpasses.tracked hy.tracked

theorem peek {f : Token → Parse β} (h : TracksAt source L (f (p.pending.headD source.last)) N p) :
    TracksAt source L (peek source >>= f) N p :=
  h.congr (by rw [bind_apply, peek_apply])

theorem fail {c : Complaint} (hc : c.unwinds = true) {M : α → Words} (hv : Possible L)
    (hn : ∀ w, p.pending.headD source.last :: w ∉ L) :
    TracksAt source L (fail source c) M p :=
  ⟨.report p _, .derailed <| @Derails.mk _ _ _ _ [] p.pending c [] [] rfl
    (by simp [Parser.report]) (by simp) hc hv hn⟩

end TracksAt

namespace Tracks

variable {n : Nat}

theorem pure (a : α) : Tracks source n L (pure a : Parse α) fun _ => L :=
  fun p _ => ⟨.refl p, .ok (.refl _ p)⟩

/-- The last turn of a loop, and one before another. -/
theorem last : Tracks source n K (Pure.pure none : Parse (Option α)) fun o => o.elim K fun _ => L :=
  fun p _ => ⟨.refl p, .ok (.refl _ p)⟩

theorem more (a : α) :
    Tracks source n L (Pure.pure (some a) : Parse (Option α)) fun o => o.elim K fun _ => L :=
  fun p _ => ⟨.refl p, .ok (.refl _ p)⟩

theorem advance (hl : source.last.isEnd) {f : Token → Parse β} {N : β → Words} {t : Token}
    (hf : Tracks source n K (f t) N) (hp : p.pending.length < n)
    (ht : p.pending.headD source.last = t) (hk : t.kind ≠ .eof) (hL : ∀ w, t :: w ∈ L ↔ w ∈ K) :
    TracksAt source L (advance source >>= f) N p := by
  obtain ⟨u, rest, hq⟩ := exists_pending hl (ht ▸ hk)
  obtain rfl : u = t := by rwa [hq] at ht
  refine .take hq ?_ hL (hf { p with pending := rest } ?_)
  · rw [bind_apply, advance_apply, hq]
    rfl
  · exact Nat.lt_trans (by simp [hq]) hp

theorem exhausted {M : α → Words} : Tracks source n L (throw .exhausted : Parse α) M :=
  fun p _ => ⟨.refl p, .exhausted⟩

theorem bind {x : Parse α} {f : α → Parse β} {M : α → Words} {N : β → Words}
    (hx : Tracks source n L x M) (hf : ∀ a, Tracks source n (M a) (f a) N) :
    Tracks source n L (x >>= f) N := fun p hp =>
  (hx p hp).bind fun a q hs => hf a q <| by
    have ha := (hx p hp).advances.length_le
    rw [hs] at ha
    exact Nat.lt_of_le_of_lt ha hp

theorem map {x : Parse α} {M : Words} (f : α → β) (h : Tracks source n L x fun _ => M) :
    Tracks source n L (f <$> x) fun _ => M := by
  rw [map_eq_pure_bind]
  exact h.bind fun a => pure (f a)

theorem ite {c : Prop} [Decidable c] {x y : Parse α} {M : α → Words} (hx : Tracks source n L x M)
    (hy : Tracks source n L y M) : Tracks source n L (if c then x else y) M := by
  split
  · exact hx
  · exact hy

theorem report (t : Token) {c : Complaint} (hc : c.unwinds = false) :
    Tracks source n L (report t c) fun _ => L := fun p _ =>
  ⟨.report p _, .ok ⟨(List.nil_append _).symm, .report p hc, fun _ hw => hw, fun _ _ hw => hw⟩⟩

theorem peek : Tracks source n L (peek source) fun _ => L := fun p _ => ⟨.refl p, .ok (.refl L p)⟩

theorem get : Tracks source n L (MonadState.get : Parse Parser) fun _ => L :=
  fun p _ => ⟨.refl p, .ok (.refl L p)⟩

theorem inFunction {x : Parse α} {M : α → Words} (h : Tracks source n L x M) :
    Tracks source n L (Parse.inFunction x) M := by
  intro p hp
  obtain ⟨ha, ht⟩ := h { p with functionDepth := p.functionDepth + 1 } hp
  refine ⟨⟨ha.pending, ha.diagnostics, congrArg (· - 1) ha.functionDepth⟩, ?_⟩
  unfold Parse.inFunction
  rcases hs : x { p with functionDepth := p.functionDepth + 1 } with ⟨e | a, q⟩ <;> rw [hs] at ht
  · cases ht with
    | derailed h =>
      obtain ⟨hp, hq, hb, hc, hv, hn⟩ := h
      exact .derailed ⟨hp, hq, hb, hc, hv, hn⟩
    | exhausted => exact .exhausted
  · cases ht with
    | derailed h =>
      obtain ⟨hp, hq, hb, hc, hv, hn⟩ := h
      exact .derailed ⟨hp, hq, hb, hc, hv, hn⟩
    | ok h =>
      obtain ⟨hp, hq, hin, hout⟩ := h
      exact .ok ⟨hp, hq, hin, hout⟩

theorem recover {x : Parse α} (h : Tracks source n L x fun _ => K) :
    Tracks source n L (Parse.recover x) fun _ => K := by
  intro p hp
  obtain ⟨ha, ht⟩ := h p hp
  unfold Parse.recover
  rcases hs : x p with ⟨(_ | _) | a, q⟩ <;> rw [hs] at ha ht <;> refine ⟨?_, ?_⟩ <;> rw [hs]
  · exact ha.trans (.synchronize q)
  · cases ht with
    | derailed h => exact .derailed (h.advance (.synchronize q))
  · exact ha
  · exact .exhausted
  · exact ha
  · cases ht with
    | derailed h => exact .derailed h
    | ok h => exact .ok h

/-- A token of the kinds, or what comes without one. A word that comes without one and begins like that
has to be such a word too. -/
theorem acceptShared (hl : source.last.isEnd) {ks : List Kind} (hk : .eof ∉ ks)
    (hK : ∀ t w, t.kind ∈ ks → t :: w ∈ K → w ∈ L) :
    Tracks source n (K + ofKinds ks * L) (accept? source ks) fun o => o.elim K fun _ => L := by
  intro p hp
  by_cases hc : (p.pending.headD source.last).kind ∈ ks
  · obtain ⟨t, rest, hq⟩ := exists_pending hl fun he => hk (he ▸ hc)
    have he : accept? source ks p = (Pure.pure (some t) : Parse _) { p with pending := rest } := by
      rw [accept?_apply, if_pos (List.contains_iff_mem.2 hc), hq]
      rfl
    rw [hq, List.headD_cons] at hc
    refine .take hq he (fun w => ?_) ⟨.refl _, .ok (.refl _ _)⟩
    rw [Language.mem_add, Words.cons_mem_ofKinds_mul]
    exact ⟨fun h => h.elim (hK t w hc) (·.2), fun h => .inr ⟨hc, h⟩⟩
  · have he : accept? source ks p = (Pure.pure none : Parse _) p := by
      rw [accept?_apply, if_neg fun h => hc (List.contains_iff_mem.1 h)]
      rfl
    refine ((last p hp).narrow (fun w hw => .inl hw) fun w hw => ?_).congr he
    rw [Language.mem_add, Words.cons_mem_ofKinds_mul] at hw
    exact hw.resolve_right fun h => hc h.1

theorem accept (hl : source.last.isEnd) {ks : List Kind} (hk : .eof ∉ ks) (hK : Avoids ks K) :
    Tracks source n (K + ofKinds ks * L) (accept? source ks) fun o => o.elim K fun _ => L :=
  acceptShared hl hk fun t w ht hw => absurd hw (hK t w ht)

/-- A token before one more segment, or what comes after the last one. -/
theorem acceptMore (hl : source.last.isEnd) {ks : List Kind} (hk : .eof ∉ ks) (hK : Avoids ks K) :
    Tracks source n ((ofKinds ks * L)∗ * K) (accept? source ks) fun o =>
      o.elim K fun _ => L * ((ofKinds ks * L)∗ * K) := by
  have hsplit : (ofKinds ks * L)∗ * K = K + ofKinds ks * (L * ((ofKinds ks * L)∗ * K)) := by
    rw [← mul_assoc, ← Words.kstar_mul]
  have h := accept (n := n) (L := L * ((ofKinds ks * L)∗ * K)) hl hk hK
  rwa [← hsplit] at h

theorem expect (hl : source.last.isEnd) {k : Kind} (hk : k ≠ .eof) {c : Complaint}
    (hc : c.unwinds = true) (hK : Possible K) :
    Tracks source n (ofKinds [k] * K) (expect source k c) fun _ => K := by
  intro p _
  by_cases hh : (p.pending.headD source.last).kind = k
  · obtain ⟨t, rest, hq⟩ := exists_pending hl fun he => hk (hh ▸ he)
    have he : Parse.expect source k c p = (Pure.pure t : Parse _) { p with pending := rest } := by
      rw [expect_apply, if_pos hh, hq]
      rfl
    rw [hq, List.headD_cons] at hh
    refine .take hq he (fun w => ?_) ⟨.refl _, .ok (.refl _ _)⟩
    rw [Words.cons_mem_mark]
    exact ⟨(·.2), fun h => ⟨hh, h⟩⟩
  · have he : Parse.expect source k c p = Parse.fail source c p := by
      rw [expect_apply, if_neg hh, fail_apply]
    exact (TracksAt.fail hc (hK.mark k) fun w hw => hh (Words.cons_mem_mark.1 hw).1).congr he

/-- What is done before a token of the kind, and what otherwise. -/
theorem nextIs {k : Kind} {x y : Parse α} {M : α → Words} (hx : Tracks source n (ofKinds [k] * K) x M)
    (hy : Tracks source n L y M) (hL : Avoids [k] L) :
    Tracks source n (ofKinds [k] * K + L)
      (Parse.nextIs source k >>= fun b => if b = true then x else y) M := by
  intro p hp
  have he : (Parse.nextIs source k >>= fun b => if b = true then x else y) p =
      if (p.pending.headD source.last).kind = k then x p else y p := by
    rw [bind_apply, nextIs_apply]
    simp only [decide_eq_true_eq]
    split <;> rfl
  by_cases hh : (p.pending.headD source.last).kind = k
  · rw [if_pos hh] at he
    refine ((hx p hp).narrow (fun w hw => .inl hw) fun w hw => ?_).congr he
    exact hw.resolve_right (hL _ w (List.mem_singleton.2 hh))
  · rw [if_neg hh] at he
    refine ((hy p hp).narrow (fun w hw => .inr hw) fun w hw => ?_).congr he
    exact hw.resolve_left fun h => hh (Words.cons_mem_mark.1 h).1

/-- A loop whose turns take a token or end it. -/
theorem extend {step : Node → Parse (Option Node)}
    (hlt : ∀ p l m, (step l p).1 = .ok (some m) → (step l p).2.pending.length < p.pending.length)
    (hs : ∀ l, Tracks source n L (step l) fun o => o.elim K fun _ => L) {turns : Nat} (hn : turns ≤ n)
    (l : Node) : Tracks source turns L (extend step turns l) fun _ => K := by
  induction turns generalizing l with
  | zero => exact fun p hp => absurd hp (Nat.not_lt_zero _)
  | succ turns ih =>
    intro p hp
    refine (hs l p (Nat.lt_of_lt_of_le hp hn)).bind fun o q hq => ?_
    cases o with
    | none => exact ⟨.refl q, .ok (.refl K q)⟩
    | some m =>
      have hless := hlt p l m (by rw [hq])
      rw [hq] at hless
      exact ih (by omega) m q (Nat.lt_of_lt_of_le hless (Nat.le_of_lt_succ hp))

/-- Items with commas between them. -/
theorem separated (hl : source.last.isEnd) {excess : Complaint} (he : excess.unwinds = false)
    {item : Parse Node} (htakes : TakesOne item)
    (hs : Tracks source n (L * ((ofKinds [.comma] * L)∗ * K)) item
      fun _ => (ofKinds [.comma] * L)∗ * K)
    (hK : Avoids [.comma] K) {turns : Nat} (hn : turns ≤ n) (done : Array Node) :
    Tracks source turns (L * ((ofKinds [.comma] * L)∗ * K))
      (Parse.separated source excess item turns done) fun _ => K := by
  induction turns generalizing done with
  | zero => exact fun p hp => absurd hp (Nat.not_lt_zero _)
  | succ turns ih =>
    refine ite (bind peek fun t => bind (report t he) fun _ => ?_) ?_
    all_goals
      intro p hp
      refine (hs p (Nat.lt_of_lt_of_le hp hn)).bind fun m q hq => ?_
      have hless := htakes.length_lt (p := p) (a := m) (by rw [hq])
      rw [hq] at hless
      refine (acceptMore (n := turns) hl (by decide) hK).bind (fun o => ?_) q
        (Nat.lt_of_lt_of_le hless (Nat.le_of_lt_succ hp))
      cases o with
      | none => exact pure _
      | some _ => exact ih (by omega) (done.push m)

/-- Items up to a closing brace. -/
theorem untilBrace (hl : source.last.isEnd) {ks : List Kind} (hb : .rightBrace ∉ ks)
    (hk : .eof ∉ ks) {item : Parse (Option Node)} (htakes : DeclarationTakes item)
    (hs : Tracks source n (L * (L∗ * (ofKinds [.rightBrace] * K))) item
      fun _ => L∗ * (ofKinds [.rightBrace] * K))
    (hL : Begins ks L) {turns : Nat} (hn : turns ≤ n) (done : Array Node) :
    Tracks source turns (L∗ * (ofKinds [.rightBrace] * K))
      (Parse.untilBrace source item turns done) fun _ => ofKinds [.rightBrace] * K := by
  induction turns generalizing done with
  | zero => exact fun p hp => absurd hp (Nat.not_lt_zero _)
  | succ turns ih =>
    intro p hp
    have hsplit : L∗ * (ofKinds [.rightBrace] * K) = ofKinds [.rightBrace] * K +
        L * (L∗ * (ofKinds [.rightBrace] * K)) := Words.kstar_mul L _
    have he := untilBrace_succ source item turns done p
    by_cases hends : (p.pending.headD source.last).kind = .rightBrace ∨ p.pending = []
    · -- No item begins like that.
      have hnot : (p.pending.headD source.last).kind ∉ ks := by
        rcases hends with hends | hends
        · rwa [hends]
        · have hlast : source.last.kind = .eof := by simpa [Token.isEnd] using hl
          rwa [hends, List.headD_nil, hlast]
      rw [if_pos hends] at he
      refine ((pure done.toList p hp).narrow
        (fun w hw => hsplit ▸ .inl hw) fun w hw => ?_).congr he
      rw [hsplit] at hw
      refine hw.resolve_right fun hw => ?_
      obtain ⟨_, _, ⟨⟩, ht⟩ := hL.mul _ _ hw
      exact hnot ht
    · obtain ⟨hbrace, hne⟩ := not_or.1 hends
      rw [if_neg hends] at he
      have hitem : TracksAt source (L∗ * (ofKinds [.rightBrace] * K)) item
          (fun _ => L∗ * (ofKinds [.rightBrace] * K)) p := by
        refine (hs p (Nat.lt_of_lt_of_le hp hn)).narrow (fun w hw => hsplit ▸ .inr hw) fun w hw => ?_
        rw [hsplit] at hw
        exact hw.resolve_left fun hw => hbrace (Words.cons_mem_mark.1 hw).1
      refine (hitem.bind fun o q hq => ?_).congr he
      have hless := htakes.length_lt (p := p) (o := o) (by rw [hq]) hne
      rw [hq] at hless
      exact ih (by omega) _ q (Nat.lt_of_lt_of_le hless (Nat.le_of_lt_succ hp))

end Tracks

end Lox.Parse
