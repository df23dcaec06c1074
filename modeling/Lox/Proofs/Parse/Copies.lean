import Lox.Proofs.Node.Relabel
import Lox.Proofs.Parse.Steps

/-!
Parses of a text by itself and as part of a longer one. In the longer text the tokens stand some lines
further down, and more of them follow. A step copies another one if, whenever that one goes well without
a report, it takes the same tokens, reports nothing either, and has the same result for them.

A step that looks at what comes next sees the end mark in the one text and may see anything in the other.
Hence the two flavours: an inner step copies only if there are tokens left in the end, as there are
whenever a step after it needs one.
-/

set_option autoImplicit false

namespace Lox.Parse

variable {α β : Type}

/-- A text by itself and the text that it is a part of. What follows is no `else`. -/
structure Excerpt where
  above : Nat
  more : List Token
  part : Source
  whole : Source
  last : part.last.kind = .eof
  turns : part.turns ≤ whole.turns
  noElse : (more.headD whole.last).kind ≠ .elseWord

namespace Excerpt

variable (S : Excerpt)

def token (t : Token) : Token := t.down S.above

def node (n : Node) : Node := n.map S.token

/-- Where the parser of the whole text stands. -/
def parser (p : Parser) (d : Array Diagnostic) : Parser :=
  ⟨p.pending.map S.token ++ S.more, d, p.functionDepth⟩

variable {S}

theorem kind_token (t : Token) : (S.token t).kind = t.kind := rfl

theorem parser_headD {p : Parser} {t : Token} {rest : List Token} (hp : p.pending = t :: rest)
    (d : Array Diagnostic) : (S.parser p d).pending.headD S.whole.last = S.token t := by
  rw [parser, hp]
  rfl

theorem parser_tail {p : Parser} {t : Token} {rest : List Token} (hp : p.pending = t :: rest)
    (d : Array Diagnostic) :
    { S.parser p d with pending := (S.parser p d).pending.tail } =
      S.parser { p with pending := p.pending.tail } d := by
  unfold parser
  rw [hp]
  rfl

end Excerpt

/-- A step that goes well only if there is a token left. -/
def Needs (x : Parse α) : Prop := ∀ p a q, x p = (.ok a, q) → p.pending ≠ []

/-- What copying means for one parser; how many tokens it has is limited, since loops have so many turns
only. -/
structure CopiesAt (S : Excerpt) (limit : Nat) (inner : Bool) (h : α → α) (x y : Parse α)
    (p : Parser) : Prop where
  advances : Advances p (x p).2
  complains : ∀ q, x p = (.error .syntaxError, q) → q.diagnostics ≠ p.diagnostics
  copies : p.pending.length < limit → ∀ a q, x p = (.ok a, q) → q.diagnostics = p.diagnostics →
    (inner = true → q.pending ≠ []) → ∀ d, y (S.parser p d) = (.ok (h a), S.parser q d)

/-- The step `y` on the whole text copies the step `x` on the part. -/
def Copies (S : Excerpt) (limit : Nat) (inner : Bool) (h : α → α) (x y : Parse α) : Prop :=
  ∀ p, CopiesAt S limit inner h x y p

variable {S : Excerpt} {limit : Nat} {inner : Bool} {h : α → α} {h' : β → β}

theorem ne_nil_of_advances {p q : Parser} (ha : Advances p q) (hq : q.pending ≠ []) :
    p.pending ≠ [] := by
  intro hp
  have hsuffix := ha.pending
  rw [hp] at hsuffix
  exact hq (List.suffix_nil.1 hsuffix)

namespace CopiesAt

variable {x y : Parse α} {p : Parser}

theorem congr {x' y' : Parse α} (hc : CopiesAt S limit inner h x' y' p) (hx : x p = x' p)
    (hy : ∀ d, y (S.parser p d) = y' (S.parser p d)) : CopiesAt S limit inner h x y p where
  advances := by
    rw [hx]
    exact hc.advances
  complains := by
    rw [hx]
    exact hc.complains
  copies hlt a q hq hd hi d := by
    rw [hy]
    rw [hx] at hq
    exact hc.copies hlt a q hq hd hi d

theorem ite {c : Prop} [Decidable c] {x' y' : Parse α} (hx : c → CopiesAt S limit inner h x y p)
    (hy : ¬ c → CopiesAt S limit inner h x' y' p) :
    CopiesAt S limit inner h (if c then x else x') (if c then y else y') p := by
  split
  next hc => exact hx hc
  next hc => exact hy hc

/-- How many tokens may be left after the first step can depend on its result. -/
theorem bindWithin {f g : α → Parse β} {innerFirst : Bool} {L : α → Nat}
    (hx : CopiesAt S limit innerFirst h x y p)
    (hf : ∀ a, Copies S (L a) inner h' (f a) (g (h a)))
    (hL : p.pending.length < limit → ∀ a q, x p = (.ok a, q) →
      q.diagnostics = p.diagnostics → q.pending.length < L a)
    (hneeds : innerFirst = true → inner = true ∨ ∀ a, Needs (f a)) :
    CopiesAt S limit inner h' (x >>= f) (y >>= g) p := by
  obtain ⟨ha, hc, hy⟩ := hx
  cases hr : x p with
  | mk r q =>
    rw [hr] at ha
    cases r with
    | error e =>
      have hbind : (x >>= f) p = (.error e, q) := by rw [bind_apply, hr]
      refine ⟨?_, fun q' hq' => ?_, fun _ a q' hq' => ?_⟩
      · rw [hbind]
        exact ha
      · rw [hbind] at hq'
        obtain ⟨he, rfl⟩ := Prod.mk.inj hq'
        obtain rfl := Except.error.inj he
        exact hc q hr
      · rw [hbind] at hq'
        cases hq'
    | ok a =>
      obtain ⟨hb, hcomplains, hg⟩ := hf a q
      have hbind : (x >>= f) p = f a q := by rw [bind_apply, hr]
      refine ⟨?_, fun q' hq' hd => ?_, fun hlt b q' hq' hd hi d => ?_⟩
      · rw [hbind]
        exact ha.trans hb
      · rw [hbind] at hq'
        rw [hq'] at hb
        exact hcomplains q' hq' (ha.squeeze hb hd).2
      · rw [hbind] at hq'
        rw [hq'] at hb
        obtain ⟨hfirst, hsecond⟩ := ha.squeeze hb hd
        have hleft : innerFirst = true → q.pending ≠ [] := fun hinner => by
          rcases hneeds hinner with hi' | hn
          · exact ne_nil_of_advances hb (hi hi')
          · exact hn a q b q' hq'
        rw [bind_apply, hy hlt a q hr hfirst hleft d]
        exact hg (hL hlt a q hr hfirst) b q' hq' hsecond hi d

theorem bind {f g : α → Parse β} {innerFirst : Bool} (hx : CopiesAt S limit innerFirst h x y p)
    (hf : ∀ a, Copies S limit inner h' (f a) (g (h a)))
    (hneeds : innerFirst = true → inner = true ∨ ∀ a, Needs (f a)) :
    CopiesAt S limit inner h' (x >>= f) (y >>= g) p := by
  refine hx.bindWithin hf (fun hlt a q hq _ => ?_) hneeds
  have ha := hx.advances
  rw [hq] at ha
  exact Nat.lt_of_le_of_lt ha.length_le hlt

/-- Takes the token that is known to be next. -/
theorem advance {f g : Token → Parse β} {t : Token} {rest : List Token} {less : Nat}
    (hless : limit ≤ less + 1) (hp : p.pending = t :: rest)
    (hf : Copies S less inner h' (f t) (g (S.token t))) :
    CopiesAt S limit inner h' (Parse.advance S.part >>= f) (Parse.advance S.whole >>= g) p := by
  obtain ⟨ha, hc, hg⟩ := hf { p with pending := p.pending.tail }
  have htail : p.pending.tail <:+ p.pending := List.tail_suffix _
  have hpart : (Parse.advance S.part >>= f) p = f t { p with pending := p.pending.tail } := by
    rw [bind_apply, advance_apply, hp]
    rfl
  have hwhole : ∀ d, (Parse.advance S.whole >>= g) (S.parser p d) =
      g (S.token t) (S.parser { p with pending := p.pending.tail } d) := fun d => by
    rw [bind_apply, advance_apply, Excerpt.parser_headD hp, Excerpt.parser_tail hp]
  refine ⟨?_, fun q hq => ?_, fun hlt a q hq hd hi d => ?_⟩
  · rw [hpart]
    exact (Advances.drop htail).trans ha
  · rw [hpart] at hq
    exact hc q hq
  · rw [hpart] at hq
    have hlt' : p.pending.tail.length < less := by
      rw [hp, List.length_cons] at hlt
      rw [hp]
      exact Nat.lt_of_succ_lt_succ (Nat.lt_of_lt_of_le hlt hless)
    rw [hwhole]
    exact hg hlt' a q hq hd hi d

end CopiesAt

namespace Needs

theorem first {x : Parse α} (hx : Needs x) (f : α → Parse β) : Needs (x >>= f) := by
  intro p b r hr
  rw [bind_apply] at hr
  cases hs : x p with
  | mk result q =>
    rw [hs] at hr
    cases result with
    | ok a => exact hx p a q hs
    | error e => cases hr

theorem second {x : Parse α} {f : α → Parse β} (ha : ∀ p, Advances p (x p).2)
    (hf : ∀ a, Needs (f a)) : Needs (x >>= f) := by
  intro p b r hr
  rw [bind_apply] at hr
  have hp := ha p
  cases hx : x p with
  | mk result q =>
    rw [hx] at hr hp
    cases result with
    | ok a => exact ne_nil_of_advances hp (hf a q b r hr)
    | error e => cases hr

theorem throw (e : Abort) : Needs (throw e : Parse α) := fun _ _ _ hq => nomatch hq

theorem expect {kind : Kind} (hk : kind ≠ .eof) (c : Complaint) :
    Needs (Parse.expect S.part kind c) := by
  intro p a q hq hp
  rw [expect_apply, hp, List.headD_nil, S.last, if_neg hk.symm] at hq
  cases hq

theorem accept {kinds : List Kind} (hk : .eof ∉ kinds) {f : Option Token → Parse α}
    (hf : Needs (f none)) : Needs (accept? S.part kinds >>= f) := by
  intro p a q hq hp
  have hno : ¬ kinds.contains (p.pending.headD S.part.last).kind := by
    rw [hp, List.headD_nil, S.last]
    simpa using hk
  rw [bind_apply, accept?_apply, if_neg hno] at hq
  exact hf p a q hq hp

end Needs

namespace Copies

variable {x y : Parse α}

theorem pure (a : α) : Copies S limit inner h (pure a : Parse α) (pure (h a)) := by
  refine fun p => ⟨.refl p, nofun, fun _ b q hq _ _ d => ?_⟩
  obtain ⟨hb, rfl⟩ := Prod.mk.inj hq
  obtain rfl := Except.ok.inj hb
  rfl

theorem exhausted : Copies S limit inner h (throw .exhausted) y :=
  fun p => ⟨.refl p, nofun, nofun⟩

theorem fail (c : Complaint) : Copies S limit inner h (Parse.fail S.part c) y := by
  refine fun p => ⟨.report p _, fun q hq => ?_, nofun⟩
  rw [fail_apply] at hq
  obtain ⟨-, rfl⟩ := Prod.mk.inj hq
  exact Advances.report_ne p _

theorem bind {f g : α → Parse β} (hx : Copies S limit inner h x y)
    (hf : ∀ a, Copies S limit inner h' (f a) (g (h a))) :
    Copies S limit inner h' (x >>= f) (y >>= g) :=
  fun p => (hx p).bind hf .inl

/-- After an inner step comes one that needs a token. -/
theorem before {f g : α → Parse β} (hx : Copies S limit true h x y)
    (hneeds : ∀ a, Needs (f a)) (hf : ∀ a, Copies S limit inner h' (f a) (g (h a))) :
    Copies S limit inner h' (x >>= f) (y >>= g) :=
  fun p => (hx p).bind hf fun _ => .inr hneeds

theorem map {f : α → β} (hx : Copies S limit inner h x y) (hf : ∀ a, f (h a) = h' (f a)) :
    Copies S limit inner h' (f <$> x) (f <$> y) := by
  rw [map_eq_pure_bind, map_eq_pure_bind]
  refine hx.bind fun a => ?_
  rw [hf]
  exact pure (f a)

theorem ite {c : Prop} [Decidable c] {x' y' : Parse α} (hx : Copies S limit inner h x y)
    (hy : Copies S limit inner h x' y') :
    Copies S limit inner h (if c then x else x') (if c then y else y') := by
  split
  · exact hx
  · exact hy

/-- After a report there is nothing to copy. -/
theorem report {f : Unit → Parse α} {y' : Parse α} (t : Token) (c : Complaint)
    (hf : Copies S limit inner h (f ()) y) : Copies S limit inner h (Parse.report t c >>= f) y' := by
  intro p
  have hreport := Advances.report p (.at t c)
  obtain ⟨ha, hc, -⟩ := hf (p.report (.at t c))
  have hne : ∀ q, Advances (p.report (.at t c)) q → q.diagnostics ≠ p.diagnostics := fun q hq hd =>
    Advances.report_ne p _ (hreport.squeeze hq hd).1
  refine ⟨hreport.trans ha, fun q hq => ?_, fun _ a q hq hd => ?_⟩
  · have hq' : f () (p.report (.at t c)) = (.error .syntaxError, q) := hq
    rw [hq'] at ha
    exact hne q ha
  · have hq' : f () (p.report (.at t c)) = (.ok a, q) := hq
    rw [hq'] at ha
    exact absurd hd (hne q ha)

/-- The next token is known from then on. At the end of the part there is none. -/
theorem peek {f g : Token → Parse α} (hend : inner = true ∨ Needs (Parse.peek S.part >>= f))
    (hnone : ∀ t, t.kind = .eof → Copies S limit inner h (f t) (g t))
    (hsome : ∀ p t rest, p.pending = t :: rest →
      CopiesAt S limit inner h (f t) (g (S.token t)) p) :
    Copies S limit inner h (Parse.peek S.part >>= f) (Parse.peek S.whole >>= g) := by
  intro p
  cases hp : p.pending with
  | nil =>
    have hpart : (Parse.peek S.part >>= f) p = f S.part.last p := by
      rw [bind_apply, peek_apply, hp]
      rfl
    obtain ⟨ha, hc, -⟩ := hnone S.part.last S.last p
    refine ⟨?_, fun q hq => ?_, fun _ a q hq _ hi => ?_⟩
    · rw [hpart]
      exact ha
    · rw [hpart] at hq
      exact hc q hq
    · rcases hend with hinner | hneeds
      · rw [hpart] at hq
        rw [hq] at ha
        exact absurd hp (ne_nil_of_advances ha (hi hinner))
      · exact absurd hp (hneeds p a q hq)
  | cons t rest =>
    refine (hsome p t rest hp).congr ?_ fun d => ?_
    · rw [bind_apply, peek_apply, hp]
      rfl
    · rw [bind_apply, peek_apply, Excerpt.parser_headD hp]

/-- A token of one of the kinds is taken, or the step goes on without. At the end of the part the step
must need a token then, or the kind is one that does not follow. -/
theorem acceptWithin {kinds : List Kind} (hk : .eof ∉ kinds) {f g : Option Token → Parse α} {less : Nat}
    (hless : limit ≤ less + 1) (hend : inner = true ∨ Needs (f none) ∨ kinds = [.elseWord])
    (hnone : Copies S limit inner h (f none) (g none))
    (hsome : ∀ t, t.kind ∈ kinds → Copies S less inner h (f (some t)) (g (some (S.token t)))) :
    Copies S limit inner h (accept? S.part kinds >>= f) (accept? S.whole kinds >>= g) := by
  intro p
  cases hp : p.pending with
  | nil =>
    have hpart : (accept? S.part kinds >>= f) p = f none p := by
      have hno : ¬ kinds.contains (p.pending.headD S.part.last).kind := by
        rw [hp, List.headD_nil, S.last]
        simpa using hk
      rw [bind_apply, accept?_apply, if_neg hno]
    obtain ⟨ha, hc, hg⟩ := hnone p
    refine ⟨?_, fun q hq => ?_, fun hlt a q hq hd hi d => ?_⟩
    · rw [hpart]
      exact ha
    · rw [hpart] at hq
      exact hc q hq
    · rw [hpart] at hq
      rcases hend with hinner | hneeds | rfl
      · rw [hq] at ha
        exact absurd hp (ne_nil_of_advances ha (hi hinner))
      · exact absurd hp (hneeds p a q hq)
      · have hno : ¬ [Kind.elseWord].contains ((S.parser p d).pending.headD S.whole.last).kind := by
          have helse := S.noElse
          simpa [Excerpt.parser, hp] using helse
        rw [bind_apply, accept?_apply, if_neg hno]
        exact hg hlt a q hq hd hi d
  | cons t rest =>
    have hhead : p.pending.headD S.part.last = t := by rw [hp, List.headD_cons]
    by_cases ht : t.kind ∈ kinds
    · refine (CopiesAt.advance (f := fun t => f (some t)) (g := fun t => g (some t)) hless hp
        (hsome t ht)).congr ?_ fun d => ?_
      · rw [bind_apply, accept?_apply, hhead, if_pos (by simpa using ht), bind_apply, advance_apply,
          hhead]
      · rw [bind_apply, accept?_apply, Excerpt.parser_headD hp,
          if_pos (by simpa [Excerpt.kind_token] using ht), bind_apply, advance_apply, Excerpt.parser_headD hp]
    · refine (hnone p).congr ?_ fun d => ?_
      · rw [bind_apply, accept?_apply, hhead, if_neg (by simpa using ht)]
      · rw [bind_apply, accept?_apply, Excerpt.parser_headD hp,
          if_neg (by simpa [Excerpt.kind_token] using ht)]

theorem accept {kinds : List Kind} (hk : .eof ∉ kinds) {f g : Option Token → Parse α}
    (hend : inner = true ∨ Needs (f none) ∨ kinds = [.elseWord])
    (hnone : Copies S limit inner h (f none) (g none))
    (hsome : ∀ t, t.kind ∈ kinds → Copies S limit inner h (f (some t)) (g (some (S.token t)))) :
    Copies S limit inner h (accept? S.part kinds >>= f) (accept? S.whole kinds >>= g) :=
  acceptWithin hk (Nat.le_succ limit) hend hnone hsome

theorem expect {kind : Kind} (hk : kind ≠ .eof) {c : Complaint} {f g : Token → Parse α}
    (hf : ∀ t, t.kind = kind → Copies S limit inner h (f t) (g (S.token t))) :
    Copies S limit inner h (Parse.expect S.part kind c >>= f) (Parse.expect S.whole kind c >>= g) := by
  have hsplit : ∀ (source : Source) (f : Token → Parse α), Parse.expect source kind c >>= f =
      accept? source [kind] >>= fun o => o.elim (Parse.fail source c) f := by
    intro source f
    funext p
    simp only [bind_apply, expect_apply, accept?_apply, List.contains_cons, List.contains_nil,
      Bool.or_false, beq_iff_eq]
    by_cases hc : (p.pending.headD source.last).kind = kind
    · simp only [if_pos hc, Option.elim_some]
    · simp only [if_neg hc, Option.elim_none, fail_apply]
  rw [hsplit, hsplit]
  have hneeds : Needs (Parse.fail S.part c : Parse α) := fun _ _ _ hq => nomatch hq
  exact accept (by simpa using hk.symm) (.inr (.inl hneeds)) (fail c) fun t ht =>
    hf t (List.mem_singleton.1 ht)

/-- A look for a kind. At the end of the part the step must need a token when it is not there. -/
theorem nextIs {kind : Kind} (hk : kind ≠ .eof) {f g : Bool → Parse α}
    (hend : inner = true ∨ Needs (f false)) (hf : ∀ b, Copies S limit inner h (f b) (g b)) :
    Copies S limit inner h (Parse.nextIs S.part kind >>= f) (Parse.nextIs S.whole kind >>= g) := by
  intro p
  cases hp : p.pending with
  | nil =>
    have hpart : (Parse.nextIs S.part kind >>= f) p = f false p := by
      rw [bind_apply, nextIs_apply, hp, List.headD_nil, S.last, decide_eq_false hk.symm]
    obtain ⟨ha, hc, -⟩ := hf false p
    refine ⟨?_, fun q hq => ?_, fun _ a q hq _ hi => ?_⟩
    · rw [hpart]
      exact ha
    · rw [hpart] at hq
      exact hc q hq
    · rw [hpart] at hq
      rcases hend with hinner | hneeds
      · rw [hq] at ha
        exact absurd hp (ne_nil_of_advances ha (hi hinner))
      · exact absurd hp (hneeds p a q hq)
  | cons t rest =>
    refine (hf (decide (t.kind = kind)) p).congr ?_ fun d => ?_
    · rw [bind_apply, nextIs_apply, hp, List.headD_cons]
    · rw [bind_apply, nextIs_apply, Excerpt.parser_headD hp]
      rfl

theorem inFunction (hx : Copies S limit inner h x y) :
    Copies S limit inner h (Parse.inFunction x) (Parse.inFunction y) := by
  intro p
  obtain ⟨ha, hc, hy⟩ := hx { p with functionDepth := p.functionDepth + 1 }
  cases hr : x { p with functionDepth := p.functionDepth + 1 } with
  | mk r q =>
    rw [hr] at ha
    have hpart : Parse.inFunction x p = (r, { q with functionDepth := q.functionDepth - 1 }) := by
      unfold Parse.inFunction
      rw [hr]
    refine ⟨?_, fun q' hq' => ?_, fun hlt a q' hq' hd hi d => ?_⟩
    · rw [hpart]
      exact ⟨ha.pending, ha.diagnostics, congrArg (· - 1) ha.functionDepth⟩
    · rw [hpart] at hq'
      obtain ⟨rfl, rfl⟩ := Prod.mk.inj hq'
      exact hc q hr
    · rw [hpart] at hq'
      obtain ⟨rfl, rfl⟩ := Prod.mk.inj hq'
      have hcopy := hy hlt a q hr hd hi d
      have hbegin : { S.parser p d with functionDepth := (S.parser p d).functionDepth + 1 } =
        S.parser { p with functionDepth := p.functionDepth + 1 } d := rfl
      unfold Parse.inFunction
      rw [hbegin, hcopy]
      rfl

/-- A step that recovers has a result whenever nothing is reported. -/
theorem recover (hx : Copies S limit inner h x y) :
    Copies S limit inner (Option.map h) (Parse.recover x) (Parse.recover y) := by
  intro p
  obtain ⟨ha, hc, hy⟩ := hx p
  cases hr : x p with
  | mk r q =>
    rw [hr] at ha
    cases r with
    | ok a =>
      have hpart : Parse.recover x p = (.ok (some a), q) := by
        unfold Parse.recover
        rw [hr]
      refine ⟨?_, fun q' hq' => ?_, fun hlt o q' hq' hd hi d => ?_⟩
      · rw [hpart]
        exact ha
      · rw [hpart] at hq'
        cases hq'
      · rw [hpart] at hq'
        obtain ⟨ho, rfl⟩ := Prod.mk.inj hq'
        obtain rfl := Except.ok.inj ho
        unfold Parse.recover
        rw [hy hlt a q hr hd hi d]
        rfl
    | error e =>
      cases e with
      | exhausted =>
        have hpart : Parse.recover x p = (.error .exhausted, q) := by
          unfold Parse.recover
          rw [hr]
        refine ⟨?_, fun q' hq' => ?_, fun _ o q' hq' => ?_⟩
        · rw [hpart]
          exact ha
        · rw [hpart] at hq'
          cases hq'
        · rw [hpart] at hq'
          cases hq'
      | syntaxError =>
        have hpart : Parse.recover x p = (.ok none, q.synchronize) := by
          unfold Parse.recover
          rw [hr]
        have hsync := Advances.synchronize q
        refine ⟨?_, fun q' hq' => ?_, fun _ o q' hq' hd => ?_⟩
        · rw [hpart]
          exact ha.trans hsync
        · rw [hpart] at hq'
          cases hq'
        · rw [hpart] at hq'
          obtain ⟨-, rfl⟩ := Prod.mk.inj hq'
          exact absurd (ha.squeeze hsync hd).1 (hc q hr)

theorem weaken {less : Nat} (hx : Copies S limit inner h x y) (hl : less ≤ limit) :
    Copies S less inner h x y := fun p =>
  ⟨(hx p).advances, (hx p).complains, fun hlt => (hx p).copies (Nat.lt_of_lt_of_le hlt hl)⟩

/-- A loop that extends a node. Each turn takes a token, so the turns are enough. -/
theorem extend {step step' : Node → Parse (Option Node)}
    (hs : ∀ n, Copies S limit true (Option.map S.node) (step n) (step' (S.node n)))
    (hshrinks : ∀ n p m q, step n p = (.ok (some m), q) → q.pending.length < p.pending.length)
    (turns turns' : Nat) (hturns : turns ≤ turns') (hlimit : turns ≤ limit) (n : Node) :
    Copies S turns true S.node (Parse.extend step turns n) (Parse.extend step' turns' (S.node n)) := by
  induction turns generalizing turns' n with
  | zero => exact fun p => ⟨.refl p, nofun, fun hlt => absurd hlt (Nat.not_lt_zero _)⟩
  | succ turns ih =>
    obtain ⟨turns', rfl⟩ := Nat.exists_eq_add_of_lt hturns
    refine fun p => CopiesAt.bindWithin (L := fun o => o.elim (turns + 1) fun _ => turns)
      ((hs n).weaken hlimit p) (fun o => ?_) (fun hlt o q hq _ => ?_) fun _ => .inl rfl
    · cases o with
      | none => exact pure n
      | some m => exact ih _ (Nat.le_add_right _ _) (Nat.le_of_succ_le hlimit) m
    · cases o with
      | none =>
        have ha := (hs n p).advances
        rw [hq] at ha
        exact Nat.lt_of_le_of_lt ha.length_le hlt
      | some m => exact Nat.lt_of_lt_of_le (hshrinks n p m q hq) (Nat.le_of_lt_succ hlt)

theorem reportIf {q : Prop} [Decidable q] (c : Complaint) {x y : Parse α}
    (hx : Copies S limit true h x y) : Copies S limit true h
      (if q then (do let t ← Parse.peek S.part; Parse.report t c; x) else x)
      (if q then (do let t ← Parse.peek S.whole; Parse.report t c; y) else y) := by
  refine ite ?_ hx
  exact peek (.inl rfl) (fun t _ => report t c hx) fun p t _ _ => report t c hx p

theorem separated {item item' : Parse Node} {c : Complaint}
    (hi : Copies S limit true S.node item item') (turns turns' : Nat) (hturns : turns ≤ turns')
    (hlimit : turns ≤ limit) (done : Array Node) :
    Copies S turns true (List.map S.node) (Parse.separated S.part c item turns done)
      (Parse.separated S.whole c item' turns' (done.map S.node)) := by
  induction turns generalizing turns' done with
  | zero => exact fun p => ⟨.refl p, nofun, fun hlt => absurd hlt (Nat.not_lt_zero _)⟩
  | succ turns ih =>
    obtain ⟨turns', rfl⟩ := Nat.exists_eq_add_of_lt hturns
    simp only [Parse.separated, Array.size_map]
    refine reportIf c ((hi.weaken hlimit).bind fun n =>
      acceptWithin (by decide) (Nat.le_refl _) (.inl rfl) ?_ fun _ _ => ?_)
    · have hpure : Copies S (turns + 1) true (List.map S.node) (Pure.pure (done.push n).toList)
        (Pure.pure ((done.push n).toList.map S.node)) := pure _
      simpa using hpure
    · have hnext := ih (turns + turns') (Nat.le_add_right _ _) (Nat.le_of_succ_le hlimit) (done.push n)
      rwa [Array.map_push] at hnext

theorem atEnd {f g : Bool → Parse α} (hf : ∀ b, Copies S limit true h (f b) (g b)) :
    Copies S limit true h (Parse.atEnd >>= f) (Parse.atEnd >>= g) := by
  intro p
  have hpart : (Parse.atEnd >>= f) p = f p.pending.isEmpty p := by rw [bind_apply, atEnd_apply]
  obtain ⟨ha, hc, hg⟩ := hf p.pending.isEmpty p
  refine ⟨?_, fun q hq => ?_, fun hlt a q hq hd hi d => ?_⟩
  · rw [hpart]
    exact ha
  · rw [hpart] at hq
    exact hc q hq
  · rw [hpart] at hq
    have hwhole : (S.parser p d).pending.isEmpty = p.pending.isEmpty := by
      rw [hq] at ha
      obtain ⟨t, rest, hp⟩ := List.exists_cons_of_ne_nil (ne_nil_of_advances ha (hi rfl))
      rw [Excerpt.parser, hp]
      rfl
    rw [bind_apply, atEnd_apply, hwhole]
    exact hg hlt a q hq hd hi d

theorem untilBrace {item item' : Parse (Option Node)}
    (hi : Copies S limit false (Option.map S.node) item item')
    (hshrinks : ∀ p o q, p.pending.length < limit → item p = (.ok o, q) →
      q.diagnostics = p.diagnostics → q.pending.length < p.pending.length) (turns turns' : Nat)
    (hturns : turns ≤ turns') (hlimit : turns ≤ limit) (done : Array Node) :
    Copies S turns true (List.map S.node) (Parse.untilBrace S.part item turns done)
      (Parse.untilBrace S.whole item' turns' (done.map S.node)) := by
  induction turns generalizing turns' done with
  | zero => exact fun p => ⟨.refl p, nofun, fun hlt => absurd hlt (Nat.not_lt_zero _)⟩
  | succ turns ih =>
    obtain ⟨turns', rfl⟩ := Nat.exists_eq_add_of_lt hturns
    have hdone : Copies S (turns + 1) true (List.map S.node) (Pure.pure done.toList)
      (Pure.pure (done.toList.map S.node)) := pure _
    rw [← Array.toList_map] at hdone
    refine nextIs (by decide) (.inl rfl) fun brace => atEnd fun ending => ite hdone fun p => ?_
    refine CopiesAt.bindWithin (L := fun _ => turns) (hi.weaken hlimit p) (fun o => ?_)
      (fun hlt o q hq hd => ?_) fun _ => .inl rfl
    · cases o with
      | none => exact ih _ (Nat.le_add_right _ _) (Nat.le_of_succ_le hlimit) done
      | some n =>
        have hnext := ih (turns + turns') (Nat.le_add_right _ _) (Nat.le_of_succ_le hlimit) (done.push n)
        rwa [Array.map_push] at hnext
    · have hshorter := hshrinks p o q (Nat.lt_of_lt_of_le hlt hlimit) hq hd
      exact Nat.lt_of_lt_of_le hshorter (Nat.le_of_lt_succ hlt)

end Copies

/-- A step that begins with a token of some kinds, or else has no result. -/
theorem shrinks_of_accept {source : Source} (hl : source.last.kind = .eof) {kinds : List Kind}
    (hk : .eof ∉ kinds) {f : Option Token → Parse (Option Node)} (hnone : f none = pure none)
    (ha : ∀ t p, Advances p (f (some t) p).2) {p q : Parser} {m : Node}
    (h : (accept? source kinds >>= f) p = (.ok (some m), q)) :
    q.pending.length < p.pending.length := by
  rw [bind_apply, accept?_apply] at h
  cases hp : p.pending with
  | nil =>
    rw [hp, List.headD_nil, hl, if_neg (by simpa using hk)] at h
    have hf : f none p = (.ok (some m), q) := h
    rw [hnone] at hf
    cases hf
  | cons t rest =>
    by_cases hc : kinds.contains (p.pending.headD source.last).kind
    · rw [if_pos hc] at h
      have hf : f (some (p.pending.headD source.last)) { p with pending := p.pending.tail } =
        (.ok (some m), q) := h
      have hadvances := ha (p.pending.headD source.last) { p with pending := p.pending.tail }
      rw [hf] at hadvances
      have hle := hadvances.length_le
      rw [hp] at hle
      exact Nat.lt_succ_of_le hle
    · rw [if_neg hc] at h
      have hf : f none p = (.ok (some m), q) := h
      rw [hnone] at hf
      cases hf

end Lox.Parse
