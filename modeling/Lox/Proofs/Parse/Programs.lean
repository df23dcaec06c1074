import Lox.Proofs.Parse.Completeness

/-!
The parse of whole programs. Main result: with frames enough, a token list is parsed without a
report just if it is a program of the grammar, and the statements are then the tree of every
derivation.
-/

set_option autoImplicit false

namespace Lox

open Grammar Parse

namespace Parse

variable {source : Source} {frames : Nat}

/-- One more turn takes a declaration, or drops what cannot be parsed. -/
theorem programOnto_succ {turns : Nat} {done : Array Node} {p : Parser} {first : Token}
    {rest : List Token} (hq : p.pending = first :: rest) :
    programOnto source frames (turns + 1) done p =
      match declaration source frames p with
      | (.ok (some n), p) => programOnto source frames turns (done.push n) p
      | (.error .exhausted, p) => programOnto source frames turns done
          (p.report (.at first .tooMuchNesting)).synchronize
      | (_, p) => programOnto source frames turns done p := by
  rcases hs : declaration source frames p with ⟨(_ | n) | _ | _, p'⟩ <;>
    simp only [programOnto, hq, hs]

variable (frames)
variable (hl : source.last.isEnd)
include hl

theorem programOnto_advances (turns : Nat) (done : Array Node) (p : Parser)
    (hp : p.pending.length < source.turns) (hd : p.functionDepth = 0) :
    Advances p (programOnto source frames turns done p).2 := by
  induction turns generalizing done p with
  | zero => exact .refl p
  | succ turns ih =>
    have ha := ((statementsSound hl frames).declaration false p hp (by simp [hd])).advances
    have hnext : ∀ done p', Advances p p' →
        Advances p (programOnto source frames turns done p').2 :=
      fun done p' h => h.trans (ih done p' (Nat.lt_of_le_of_lt h.length_le hp)
        (h.functionDepth.trans hd))
    cases hq : p.pending with
    | nil => rw [programOnto, hq]; exact .refl p
    | cons first rest =>
      rw [programOnto_succ hq]
      cases hs : declaration source frames p with
      | mk r p' =>
        rw [hs] at ha
        cases r with
        | ok o => cases o <;> exact hnext _ _ ha
        | error e =>
          cases e with
          | syntaxError => exact hnext _ _ ha
          | exhausted => exact hnext _ _ ((ha.trans (.report _ _)).trans (.synchronize _))

theorem programOnto_sound (turns : Nat) (done : Array Node) (p : Parser)
    (hp : p.pending.length < turns) (ht : turns ≤ source.turns) (hd : p.functionDepth = 0)
    (hr : (programOnto source frames turns done p).2.diagnostics = p.diagnostics) :
    ∃ items, (programOnto source frames turns done p).1.toList = done.toList ++ items ∧
      Declarations false p.pending items := by
  induction turns generalizing done p with
  | zero => omega
  | succ turns ih =>
    have hlt : p.pending.length < source.turns := by omega
    obtain ⟨ha, he⟩ := (statementsSound hl frames).declaration false p hlt (by simp [hd])
    have hnext : ∀ done p', Advances p p' →
        Advances p' (programOnto source frames turns done p').2 :=
      fun done p' h => programOnto_advances frames hl turns done p'
        (Nat.lt_of_le_of_lt h.length_le hlt) (h.functionDepth.trans hd)
    cases hq : p.pending with
    | nil => exact ⟨[], by simp [programOnto, hq], .nil⟩
    | cons first rest =>
      rw [programOnto_succ hq] at hr ⊢
      cases hs : declaration source frames p with
      | mk r p' =>
        rw [hs] at ha he hr
        cases r with
        | ok o =>
          cases o with
          | none =>
            obtain ⟨ts, _, n, hn, _⟩ := he (ha.squeeze (hnext _ _ ha) hr).1
            simp at hn
          | some n =>
            obtain ⟨hd₁, hd₂⟩ := ha.squeeze (hnext _ _ ha) hr
            obtain ⟨ts, hts, m, hm, h⟩ := he hd₁
            obtain rfl : n = m := Option.some.inj hm
            have hpos : p'.pending.length < turns := by
              obtain ⟨t, us, rfl, _⟩ := h.head
              have := congrArg List.length hts
              simp at this
              omega
            obtain ⟨items, hi, hs⟩ := ih (done.push n) p' hpos (by omega)
              (ha.functionDepth.trans hd) hd₂
            refine ⟨n :: items, by simpa using hi, ?_⟩
            rw [← hq, hts]
            exact .cons h hs
        | error e =>
          cases e with
          | syntaxError => exact absurd (ha.squeeze (hnext _ _ ha) hr).1 he
          | exhausted =>
            have hrep := Advances.report p' (.at first .tooMuchNesting)
            have hsync := Advances.synchronize (p'.report (.at first .tooMuchNesting))
            have hall := hnext done _ ((ha.trans hrep).trans hsync)
            have hp' := (ha.squeeze (hrep.trans (hsync.trans hall)) hr).2
            exact absurd (hrep.squeeze (hsync.trans hall) hp').1 (Advances.report_ne _ _)

theorem programOnto_complete {ts : List Token} {ns : List Node} (turns : Nat) (done : Array Node)
    (d : Array Diagnostic) (hts : ts.length < turns) (ht : turns ≤ source.turns) :
    Declarations false ts ns →
    ((programOnto source frames turns done ⟨ts, d, 0⟩).1.toList = done.toList ++ ns ∧
      (programOnto source frames turns done ⟨ts, d, 0⟩).2.diagnostics = d) ∨
    ∃ x ∈ (programOnto source frames turns done ⟨ts, d, 0⟩).2.diagnostics.toList,
      x.complaint = .tooMuchNesting
  | .nil => by
    cases turns <;> exact .inl (by simp [programOnto])
  | @Declarations.cons _ _ us n ns h hs => by
    obtain ⟨t, vs, rfl, ht⟩ := h.head
    cases turns with
    | zero => omega
    | succ turns =>
      have helse : Stops [.elseWord] us := by
        have hstop : Stops [.elseWord] (us ++ []) := hs.stops (by decide) .nil
        simpa using hstop
      rw [programOnto_succ rfl]
      rcases (statementsComplete hl frames).declaration h helse d 0 (by simp at hts ⊢; omega)
        (by simp) with hr | ⟨p, hr⟩
      · rw [hr]
        have hus : us.length < turns := by simp at hts; omega
        simpa using programOnto_complete turns (done.push n) d hus (by omega) hs
      · rw [hr]
        have ha := ((statementsSound hl frames).declaration false ⟨t :: vs ++ us, d, 0⟩
          (by simp at hts ⊢; omega) (by simp)).advances
        rw [show declaration source frames ⟨t :: vs ++ us, d, 0⟩ = _ from hr] at ha
        have hsync := Advances.synchronize (p.report (.at t .tooMuchNesting))
        have hall := (ha.trans (.report p (.at t .tooMuchNesting))).trans hsync
        have hrest := programOnto_advances frames hl turns done _
          (Nat.lt_of_le_of_lt hall.length_le (by simp at hts ⊢; omega)) hall.functionDepth
        have hmem : Diagnostic.at t .tooMuchNesting ∈
            (p.report (.at t .tooMuchNesting)).diagnostics.toList := by simp [Parser.report]
        exact .inr ⟨_, (hsync.trans hrest).diagnostics.subset hmem, rfl⟩

end Parse

/-- One end mark, which is the last token. -/
def EndsOnce (tokens : List Token) : Prop :=
  ∃ body last, tokens = body ++ [last] ∧ last.kind = .eof ∧ ∀ t ∈ body, t.kind ≠ .eof

theorem find_isEnd {body : List Token} {last : Token} (hl : last.kind = .eof)
    (hb : ∀ t ∈ body, t.kind ≠ .eof) :
    (body ++ [last]).find? Token.isEnd = some last ∧
      (body ++ [last]).takeWhile (!·.isEnd) = body := by
  have hlast : last.isEnd = true := by simpa [Token.isEnd] using hl
  induction body with
  | nil => simp [hlast]
  | cons t ts ih =>
    have ht : t.isEnd = false := by simpa [Token.isEnd] using hb t (by simp)
    simp [ht, ih fun u hu => hb u (by simp [hu])]

/-- A token list with one end mark is parsed from all tokens before it. -/
theorem parse_eq (frames : Nat) {body : List Token} {last : Token} (hl : last.kind = .eof)
    (hb : ∀ t ∈ body, t.kind ≠ .eof) : ∃ source : Source, source.last.isEnd ∧
      body.length < source.turns ∧ parse frames (body ++ [last]) =
        ⟨(programOnto source frames source.turns #[] ⟨body, #[], 0⟩).1.toList,
          (programOnto source frames source.turns #[] ⟨body, #[], 0⟩).2.diagnostics.toList⟩ := by
  obtain ⟨hfind, htake⟩ := find_isEnd hl hb
  refine ⟨.ofTokens (body ++ [last]), ?_, ?_, ?_⟩
  · simpa [Source.ofTokens, Source.lastOf, hfind, Token.isEnd] using hl
  · have hlen : (body ++ [last]).length = body.length + 1 := by simp
    change body.length < (body ++ [last]).length + 1
    omega
  · have hp : Parser.ofTokens (body ++ [last]) = ⟨body, #[], 0⟩ := by
      simp [Parser.ofTokens, htake]
    rw [parse, hp]

theorem parse_sound {frames : Nat} {tokens : List Token} (he : EndsOnce tokens)
    (hd : (parse frames tokens).diagnostics = []) :
    Grammar.Program tokens (parse frames tokens).statements := by
  obtain ⟨body, last, rfl, hlast, hbody⟩ := he
  obtain ⟨source, hl, hlt, hparse⟩ := parse_eq frames hlast hbody
  rw [hparse] at hd ⊢
  have hnone := Array.toList_inj.1 (show _ = (#[] : Array Diagnostic).toList from hd)
  obtain ⟨items, hitems, h⟩ := programOnto_sound frames hl source.turns #[] ⟨body, #[], 0⟩ hlt
    (Nat.le_refl _) rfl hnone
  rw [show _ = items from hitems]
  exact .mk h hlast

theorem parse_complete {frames : Nat} {tokens : List Token} {p : List Node} (he : EndsOnce tokens)
    (hf : ∀ d ∈ (parse frames tokens).diagnostics, d.complaint ≠ .tooMuchNesting)
    (hp : Grammar.Program tokens p) :
    (parse frames tokens).diagnostics = [] ∧ (parse frames tokens).statements = p := by
  obtain ⟨body, last, hbody, hlast, hends⟩ := he
  obtain ⟨h, _⟩ := hp
  obtain ⟨rfl, hlasts⟩ := List.append_inj' hbody rfl
  obtain rfl := List.singleton_inj.1 hlasts
  obtain ⟨source, hl, hlt, hparse⟩ := parse_eq frames hlast hends
  rw [hparse] at hf ⊢
  rcases programOnto_complete frames hl source.turns #[] #[] hlt (Nat.le_refl _) h with
    ⟨hs, hd⟩ | ⟨x, hx, hn⟩
  · exact ⟨by simp [hd], by simpa using hs⟩
  · exact absurd hn (hf x hx)

/-- The parse reports nothing just for the programs of the grammar, and gives their tree. -/
theorem parse_exact {frames : Nat} {tokens : List Token} (he : EndsOnce tokens)
    (hf : ∀ d ∈ (parse frames tokens).diagnostics, d.complaint ≠ .tooMuchNesting) :
    ((parse frames tokens).diagnostics = [] ↔ ∃ p, Grammar.Program tokens p) ∧
      ∀ p, Grammar.Program tokens p → (parse frames tokens).statements = p := by
  refine ⟨⟨fun hd => ⟨_, parse_sound he hd⟩, ?_⟩, fun p hp => (parse_complete he hf hp).2⟩
  rintro ⟨p, hp⟩
  exact (parse_complete he hf hp).1

/-- An `if` inside another one, and an `else` for the inner one. -/
def nestedIfTokens : List Token :=
  [.ifWord, .leftParen, .trueWord, .rightParen, .ifWord, .leftParen, .falseWord, .rightParen,
   .nilWord, .semicolon, .elseWord, .nilWord, .semicolon, .eof].map fun k => ⟨k, .null, .null, 1⟩

theorem parse_exact_nestedIf : EndsOnce nestedIfTokens ∧
    (∀ d ∈ (parse 20 nestedIfTokens).diagnostics, d.complaint ≠ .tooMuchNesting) ∧
    ∃ p, Grammar.Program nestedIfTokens p ∧ (parse 20 nestedIfTokens).statements = p := by
  have he : EndsOnce nestedIfTokens :=
    ⟨nestedIfTokens.dropLast, ⟨.eof, .null, .null, 1⟩, rfl, rfl, by decide⟩
  have hd : (parse 20 nestedIfTokens).diagnostics = [] := rfl
  have hf : ∀ d ∈ (parse 20 nestedIfTokens).diagnostics, d.complaint ≠ .tooMuchNesting := by
    simp [hd]
  obtain ⟨hiff, htree⟩ := parse_exact he hf
  obtain ⟨p, hp⟩ := hiff.1 hd
  exact ⟨he, hf, p, hp, htree p hp⟩

end Lox
