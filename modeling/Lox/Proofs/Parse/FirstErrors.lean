import Lox.Proofs.Parse.Prediction

/-!
The first syntax error of a parse. Main statement: a complaint that unwinds is reported just for the
token lists that are no sentences, and the first one is about the first token with which no sentence can
go on.
-/

set_option autoImplicit false

namespace Lox

open Grammar
open Grammar.Words (ofKinds Follows)
open scoped Computability

namespace Parse

variable {source : Source} {frames : Nat}

section Programs

/-- After a declaration of a program come more of them and the end mark. -/
theorem program_follows : Follows [.elseWord] Symbol.program.words := by
  rw [Symbol.program_words, ← mul_one (ofKinds [.eof])]
  exact (Follows.mark .one (by decide)).kstar_mul Symbol.declaration_begins (by decide)

variable (hl : source.last.isEnd) (frames)
include hl

/-- Before the end a program goes on with a declaration. -/
theorem declaration_tracks {p : Parser} (hp : p.pending.length < source.turns) {first : Token}
    {rest : List Token} (hq : p.pending = first :: rest) (hf : first.kind ≠ .eof) :
    TracksAt source Symbol.program.words (declaration source frames)
      (fun _ => Symbol.program.words) p := by
  have hsplit : Symbol.program.words =
      ofKinds [.eof] + Symbol.declaration.words * Symbol.program.words := by
    rw [Symbol.program_words, ← Words.kstar_mul]
  refine ((statementsPredict hl frames).declaration program_follows p hp).narrow
    (fun w hw => hsplit ▸ .inr hw) fun w hw => ?_
  rw [hsplit] at hw
  refine hw.resolve_left ?_
  rintro ⟨t, he, ht⟩
  refine hf ?_
  rw [hq, List.headD_cons] at he
  rw [(List.cons.inj he).1]
  exact List.mem_singleton.1 ht

theorem programTurn_tracks {p : Parser} (hp : p.pending.length < source.turns) {first : Token}
    {rest : List Token} (hq : p.pending = first :: rest) (hf : first.kind ≠ .eof) :
    Passes source Symbol.program.words Symbol.program.words p
      (programTurn source frames first p).2 ∨
    Derails source Symbol.program.words p (programTurn source frames first p).2 ∨
    ∃ d ∈ (programTurn source frames first p).2.diagnostics.toList,
      d.complaint = .tooMuchNesting := by
  obtain ⟨-, ht⟩ := declaration_tracks frames hl hp hq hf
  unfold programTurn
  rcases hs : declaration source frames p with ⟨(_ | _) | o, q⟩ <;> rw [hs] at ht
  · cases ht with
    | derailed h => exact .inr (.inl h)
  · have hmem : Diagnostic.at first .tooMuchNesting ∈
        (q.report (.at first .tooMuchNesting)).diagnostics.toList := by simp [Parser.report]
    exact .inr (.inr ⟨_, (Advances.synchronize _).diagnostics.subset hmem, rfl⟩)
  · cases ht with
    | derailed h => exact .inr (.inl h)
    | ok h => exact .inl h

/-- A program is taken to its end without a complaint that unwinds, or it derails, or its nesting is
too deep. -/
theorem programOnto_tracks (turns : Nat) (done : Array Node) (p : Parser)
    (hp : p.pending.length < turns) (ht : turns ≤ source.turns) (hd : p.functionDepth = 0)
    (he : ∀ t ∈ p.pending, t.kind ≠ .eof) :
    Passes source Symbol.program.words Symbol.program.words p
        (programOnto source frames turns done p).2 ∧
      (programOnto source frames turns done p).2.pending = [] ∨
    Derails source Symbol.program.words p (programOnto source frames turns done p).2 ∨
    ∃ d ∈ (programOnto source frames turns done p).2.diagnostics.toList,
      d.complaint = .tooMuchNesting := by
  induction turns generalizing done p with
  | zero => exact absurd hp (Nat.not_lt_zero _)
  | succ turns ih =>
    cases hq : p.pending with
    | nil =>
      rw [programOnto_nil hq]
      exact .inl ⟨.refl _ p, hq⟩
    | cons first rest =>
      have hturn := programTurn_tracks frames hl (Nat.lt_of_lt_of_le hp ht) hq
        (he first (hq ▸ List.mem_cons_self))
      have hadvances := programTurn_advances hl frames first p
      have hless := programTurn_length_lt hl frames first p (by simp [hq])
      rw [programOnto_cons hq]
      generalize programTurn source frames first p = turn at hturn hadvances hless
      have hdepth : turn.2.functionDepth = 0 := hadvances.functionDepth.trans hd
      have hfinal := programOnto_advances frames hl turns (turn.1.elim done done.push) turn.2
        (by omega) hdepth
      rcases hturn with h | h | ⟨d, hd, hc⟩
      · rcases ih (turn.1.elim done done.push) turn.2 (by omega) (by omega) hdepth
          fun t ht => he t (hadvances.pending.subset ht) with ⟨h', hend⟩ | h' | h'
        · exact .inl ⟨h.trans h', hend⟩
        · exact .inr (.inl (h.derails h'))
        · exact .inr (.inr h')
      · exact .inr (.inl (h.advance hfinal))
      · exact .inr (.inr ⟨d, hfinal.diagnostics.subset hd, hc⟩)

end Programs

end Parse

open Parse

/-- The end mark of a token list that ends once is its last token. -/
theorem parse_endsOnce (frames : Nat) {body : List Token} {last : Token} (hl : last.kind = .eof)
    (hb : ∀ t ∈ body, t.kind ≠ .eof) : (parse frames (body ++ [last])).diagnostics =
      (programOnto ⟨last, body.length + 2⟩ frames (body.length + 2) #[]
        ⟨body, #[], 0⟩).2.diagnostics.toList := by
  obtain ⟨hfind, htake⟩ := find_isEnd hl hb
  have hsource : Source.ofTokens (body ++ [last]) = ⟨last, body.length + 2⟩ := by
    simp [Source.ofTokens, Source.lastOf, hfind]
  have hparser : Parser.ofTokens (body ++ [last]) = ⟨body, #[], 0⟩ := by
    simp [Parser.ofTokens, htake]
  rw [parse, hsource, hparser]

theorem program_end {last : Token} (hl : last.kind = .eof) : [last] ∈ Symbol.program.words := by
  rw [Symbol.program_words, Words.kstar_mul]
  exact .inl ⟨last, rfl, List.mem_singleton.2 hl⟩

/-- The first complaint of a derailed run is the first one of all that unwinds. -/
theorem Parse.Derails.find {last : Token} {turns : Nat} {L : Words} {body : List Token} {q : Parser}
    (h : Derails ⟨last, turns⟩ L ⟨body, #[], 0⟩ q) : ∃ before t after c,
      body ++ [last] = before ++ t :: after ∧
      q.diagnostics.toList.find? (·.complaint.unwinds) = some (.at t c) ∧
      (∃ rest, before ++ rest ∈ L) ∧ ∀ rest, before ++ t :: rest ∉ L := by
  obtain @⟨us, vs, c, before, after, hp, hq, hb, hc, hv, hn⟩ := h
  have hnext : vs ++ [last] = vs.headD last :: (vs ++ [last]).tail := by cases vs <;> rfl
  refine ⟨us, vs.headD last, (vs ++ [last]).tail, c, ?_, ?_, hv, hn⟩
  · rw [show body = us ++ vs from hp, List.append_assoc, hnext, List.tail_cons]
  · have hnone : before.find? (·.complaint.unwinds) = none :=
      List.find?_eq_none.2 fun d hd => by simp [hb d hd]
    rw [hq, List.find?_append]
    simp [hnone, Diagnostic.at, hc]

/-- A complaint that unwinds is reported just for the token lists that are no sentences. The first one
is about the token at which the list leaves the grammar: some sentence begins with the tokens before it,
and none with these and the token. -/
theorem first_error_earliest {frames : Nat} {tokens : List Token} (he : EndsOnce tokens)
    (hf : ∀ d ∈ (parse frames tokens).diagnostics, d.complaint ≠ .tooMuchNesting) :
    ((∃ d ∈ (parse frames tokens).diagnostics, d.complaint.unwinds) ↔ ¬ Sentence tokens) ∧
    ∀ d, (parse frames tokens).diagnostics.find? (·.complaint.unwinds) = some d →
      ∃ before t after c, tokens = before ++ t :: after ∧ d = .at t c ∧
        (∃ rest, Sentence (before ++ rest)) ∧ ∀ rest, ¬ Sentence (before ++ t :: rest) := by
  obtain ⟨body, last, rfl, hlast, hbody⟩ := he
  rw [parse_endsOnce frames hlast hbody] at hf ⊢
  simp only [sentence_iff]
  have hl : (Source.mk last (body.length + 2)).last.isEnd := by simpa [Token.isEnd] using hlast
  rcases programOnto_tracks frames hl (body.length + 2) #[] ⟨body, #[], 0⟩
    (Nat.lt_add_of_pos_right (by decide)) (Nat.le_refl _) rfl hbody with
    ⟨h, hend⟩ | h | ⟨d, hd, hc⟩
  · obtain @⟨us, hp, hquiet, hin, -⟩ := h
    rw [hend, List.append_nil] at hp
    obtain rfl : body = us := hp
    have hsentence := hin [last] (program_end hlast)
    have hnone (d : Diagnostic) (hd : d ∈ (programOnto ⟨last, body.length + 2⟩ frames
        (body.length + 2) #[] ⟨body, #[], 0⟩).2.diagnostics.toList) (hu : d.complaint.unwinds) :
        False :=
      absurd hu (by simp [hquiet.not_mem rfl (Array.mem_toList_iff.1 hd)])
    refine ⟨iff_of_false ?_ fun h => h hsentence, fun d hd => ?_⟩
    · rintro ⟨d, hd, hu⟩
      exact hnone d hd hu
    · have hu := List.find?_some hd
      exact (hnone d (List.mem_of_find?_eq_some hd) hu).elim
  · obtain ⟨before, t, after, c, hsplit, hfind, hv, hn⟩ := h.find
    have hu := List.find?_some hfind
    have hmem := List.mem_of_find?_eq_some hfind
    refine ⟨iff_of_true ⟨_, hmem, hu⟩ (hsplit ▸ hn after), fun d hd => ?_⟩
    exact ⟨before, t, after, c, hsplit, Option.some.inj (hd.symm.trans hfind), hv, hn⟩
  · exact absurd hc (hf d hd)

/-- A `print` without a value. -/
def printToken : Token := ⟨.printWord, .text "print", .null, 1⟩

def semicolonToken : Token := ⟨.semicolon, .text ";", .null, 1⟩

theorem first_error_earliest_noValue : EndsOnce [printToken, semicolonToken, .endAt 1] ∧
    (∀ d ∈ (parse 15 [printToken, semicolonToken, .endAt 1]).diagnostics,
      d.complaint ≠ .tooMuchNesting) ∧
    (∃ rest, Sentence (printToken :: rest)) ∧
    ∀ rest, ¬ Sentence (printToken :: semicolonToken :: rest) := by
  have he : EndsOnce [printToken, semicolonToken, .endAt 1] :=
    ⟨[printToken, semicolonToken], .endAt 1, rfl, rfl, by decide⟩
  have hd : (parse 15 [printToken, semicolonToken, .endAt 1]).diagnostics =
      [.at semicolonToken .missingExpression] := rfl
  have hf : ∀ d ∈ (parse 15 [printToken, semicolonToken, .endAt 1]).diagnostics,
      d.complaint ≠ .tooMuchNesting := by
    rw [hd]
    simp [Diagnostic.at]
  obtain ⟨-, hfirst⟩ := first_error_earliest he hf
  obtain ⟨before, t, after, c, hs, hat, hv, hn⟩ := hfirst _ (by rw [hd]; rfl)
  refine ⟨he, hf, ?_⟩
  rcases before with _ | ⟨a, _ | ⟨b, before⟩⟩
  · obtain ⟨rfl, -⟩ := List.cons.inj hs
    simp [Diagnostic.at, semicolonToken, printToken, Token.isEnd] at hat
  · simp only [List.cons_append, List.nil_append, List.cons.injEq] at hs
    obtain ⟨rfl, rfl, -⟩ := hs
    exact ⟨hv, hn⟩
  · have hmem : t ∈ [Token.endAt 1] := by
      rw [(List.cons.inj (List.cons.inj hs).2).2]
      simp
    obtain rfl := List.mem_singleton.1 hmem
    simp [Diagnostic.at, semicolonToken, Token.endAt, Token.isEnd] at hat

end Lox
