import Lox.Proofs.Parse.Seams
import Mathlib.Data.List.TakeWhile
import Mathlib.Logic.Relation

/-!
The parser's position in its token list, as an index. Main statement: whatever the tokens are, the parse
ends, its position only grows and never passes the first end mark, and every declaration and every turn
of a loop over declarations takes a token.
-/

set_option autoImplicit false

namespace Lox

open Parse

namespace Cursor

/-- The list that the positions are in: the tokens, with an end mark behind them unless the last token
is one. -/
def marked (tokens : List Token) : List Token :=
  match tokens.getLast? with
  | some t => if t.isEnd then tokens else tokens ++ [.endAt t.line]
  | none => [.endAt 1]

/-- The position of the first end mark. -/
def firstEnd (tokens : List Token) : Nat := (tokens.takeWhile (!·.isEnd)).length

/-- The token before a position. There is none before the first. -/
def previous? (ts : List Token) : Nat → Option Token
  | 0 => none
  | pos + 1 => ts[pos]?

/-- The position behind the token at a position; an end mark is not passed. -/
def advance? (ts : List Token) (pos : Nat) : Option Nat :=
  ts[pos]?.map fun t => if t.isEnd then pos else pos + 1

/-- The position of the next statement or of the end. -/
def skip? (ts : List Token) (pos : Nat) : Option Nat :=
  if h : pos < ts.length then
    if ts[pos].isEnd then some pos
    else
      match previous? ts pos with
      | none => none
      | some before =>
        if before.kind = .semicolon || ts[pos].kind.startsStatement then some pos
        else skip? ts (pos + 1)
  else none
termination_by ts.length - pos

def synchronize? (ts : List Token) (pos : Nat) : Option Nat :=
  (advance? ts pos).bind (skip? ts)

/-- Up to the first end mark, the list is what a parse reads. -/
theorem marked_eq (tokens : List Token) : ∃ after, marked tokens =
    tokens.takeWhile (!·.isEnd) ++ Source.lastOf tokens :: after := by
  cases hfind : tokens.find? Token.isEnd with
  | some mark =>
    obtain ⟨hmark, before, after, rfl, hbefore⟩ := List.find?_eq_some_iff_append.1 hfind
    have htake : (before ++ mark :: after).takeWhile (!·.isEnd) = before := by
      rw [List.takeWhile_append_of_pos hbefore]
      simp [hmark]
    have hlast : Source.lastOf (before ++ mark :: after) = mark := by
      rw [Source.lastOf, hfind]
    rw [htake, hlast]
    unfold marked
    split
    · split
      · exact ⟨after, rfl⟩
      · exact ⟨after ++ [_], by rw [List.append_assoc]; rfl⟩
    next hnone => simp at hnone
  | none =>
    have hall : ∀ t ∈ tokens, t.isEnd = false := by simpa using hfind
    have htake : tokens.takeWhile (!·.isEnd) = tokens :=
      List.takeWhile_eq_self_iff.2 fun t ht => by simp [hall t ht]
    rw [htake, Source.lastOf, hfind]
    refine ⟨[], ?_⟩
    unfold marked
    cases hlast : tokens.getLast? with
    | some t => simp [hall t (List.mem_of_getLast? hlast)]
    | none => simp [List.getLast?_eq_none_iff.1 hlast]

theorem skip?_end {ts : List Token} {pos : Nat} {t : Token} (h : ts[pos]? = some t)
    (ht : t.isEnd = true) : skip? ts pos = some pos := by
  obtain ⟨hlt, rfl⟩ := List.getElem?_eq_some_iff.1 h
  rw [skip?, dif_pos hlt, if_pos ht]

theorem skip?_succ {ts : List Token} {pos : Nat} {b t : Token} (hb : ts[pos]? = some b)
    (h : ts[pos + 1]? = some t) (ht : t.isEnd = false) : skip? ts (pos + 1) =
      if b.kind = .semicolon || t.kind.startsStatement then some (pos + 1)
      else skip? ts (pos + 1 + 1) := by
  obtain ⟨hlt, rfl⟩ := List.getElem?_eq_some_iff.1 h
  rw [skip?, dif_pos hlt, if_neg (by simp [ht]), previous?, hb]

/-- Skipping along the list goes as far as skipping the tokens before the first end mark. -/
theorem skip?_eq {pending before after : List Token} {b mark : Token}
    (hp : ∀ t ∈ pending, t.isEnd = false) (hm : mark.isEnd = true) :
    skip? (before ++ b :: (pending ++ mark :: after)) (before.length + 1) =
      some (before.length + 1 + (pending.length - (Parser.skip b pending).length)) := by
  induction pending generalizing before b with
  | nil => exact skip?_end (by simp) hm
  | cons t pending ih =>
    obtain ⟨ht, hpending⟩ := List.forall_mem_cons.1 hp
    have hle := (skip_suffix t pending).length_le
    rw [skip?_succ (b := b) (by simp) (by simp) ht, Parser.skip]
    split
    · simp
    · have hnext := @ih (before ++ [b]) t hpending
      rw [List.append_assoc, List.length_append, List.length_singleton] at hnext
      rw [List.length_cons, Nat.succ_sub hle]
      exact hnext.trans (congrArg some (by omega))

end Cursor

open Cursor

/-- The position in a token list of a parser that has parsed some of it. -/
def Parser.position (tokens : List Token) (p : Parser) : Nat :=
  firstEnd tokens - p.pending.length

/-- The tokens that are left are the last ones before the first end mark. -/
def Parser.Inside (tokens : List Token) (p : Parser) : Prop :=
  p.pending <:+ tokens.takeWhile (!·.isEnd)

namespace Parser.Inside

variable {tokens : List Token} {p q : Parser}

theorem ofTokens (tokens : List Token) : (Parser.ofTokens tokens).Inside tokens :=
  List.suffix_refl _

theorem advances (h : p.Inside tokens) (ha : Advances p q) : q.Inside tokens := ha.pending.trans h

theorem position_add (h : p.Inside tokens) :
    p.position tokens + p.pending.length = firstEnd tokens :=
  Nat.sub_add_cancel h.length_le

/-- The list around the position. -/
theorem split (h : p.Inside tokens) : ∃ before after, before.length = p.position tokens ∧
    (∀ t ∈ before ++ p.pending, t.isEnd = false) ∧
    marked tokens = before ++ (p.pending ++ Source.lastOf tokens :: after) := by
  obtain ⟨before, hbefore⟩ := h
  obtain ⟨after, hafter⟩ := marked_eq tokens
  refine ⟨before, after, ?_, fun t ht => ?_, by rw [hafter, ← hbefore, List.append_assoc]⟩
  · have hlength : before.length + p.pending.length = firstEnd tokens := by
      rw [firstEnd, ← hbefore, List.length_append]
    have := position_add ⟨before, hbefore⟩
    omega
  · rw [hbefore] at ht
    simpa using List.mem_takeWhile_imp ht

theorem peeked (h : p.Inside tokens) :
    (marked tokens)[p.position tokens]? = some (p.pending.headD (Source.lastOf tokens)) := by
  obtain ⟨before, after, hbefore, -, hmarked⟩ := h.split
  rw [hmarked, ← hbefore, List.getElem?_append_right (Nat.le_refl _), Nat.sub_self]
  cases p.pending <;> rfl

theorem advanced (h : p.Inside tokens) : advance? (marked tokens) (p.position tokens) =
    some (Parser.position tokens { p with pending := p.pending.tail }) := by
  have hadd := h.position_add
  rw [advance?, h.peeked]
  cases hp : p.pending with
  | nil =>
    have hlast : (Source.lastOf tokens).isEnd := Source.last_isEnd tokens
    simp [Parser.position, hp, hlast]
  | cons t rest =>
    have ht : t.isEnd = false := by
      obtain ⟨before, after, -, hall, -⟩ := h.split
      exact hall t (by simp [hp])
    rw [hp, List.length_cons] at hadd
    simp only [Parser.position, hp, List.headD_cons, Option.map_some, ht, List.tail_cons,
      List.length_cons]
    exact congrArg some (by simp; omega)

/-- The token before a position that was advanced to is the one that was taken. -/
theorem previous (h : p.Inside tokens) {t : Token} {rest : List Token}
    (ht : p.pending = t :: rest) : previous? (marked tokens)
      (Parser.position tokens { p with pending := rest }) = some t := by
  have hadd := h.position_add
  rw [ht, List.length_cons] at hadd
  have hposition : Parser.position tokens { p with pending := rest } = p.position tokens + 1 := by
    change firstEnd tokens - rest.length = _
    omega
  rw [hposition, previous?, h.peeked, ht, List.headD_cons]

/-- In particular it never looks at the token before the first position. -/
theorem synchronized (h : p.Inside tokens) : synchronize? (marked tokens) (p.position tokens) =
    some (p.synchronize.position tokens) := by
  have hadd := h.position_add
  rw [synchronize?, h.advanced, Option.bind_some]
  cases hp : p.pending with
  | nil =>
    have hsync : p.synchronize = p := by simp [Parser.synchronize, hp]
    have hlast : (Source.lastOf tokens).isEnd := Source.last_isEnd tokens
    have hpeeked := h.peeked
    rw [hp, List.headD_nil] at hpeeked
    rw [hsync, List.tail_nil, ← hp]
    exact skip?_end hpeeked hlast
  | cons t rest =>
    obtain ⟨before, after, hbefore, hall, hmarked⟩ := h.split
    have hrest : ∀ u ∈ rest, u.isEnd = false := fun u hu => hall u (by simp [hp, hu])
    have hsync : p.synchronize = { p with pending := Parser.skip t rest } := by
      simp [Parser.synchronize, hp]
    have hle := (skip_suffix t rest).length_le
    have hskip : skip? (marked tokens) (before.length + 1) =
        some (before.length + 1 + (rest.length - (Parser.skip t rest).length)) := by
      rw [hmarked, hp]
      exact skip?_eq hrest (Source.last_isEnd tokens)
    rw [hp, List.length_cons] at hadd
    have hposition : Parser.position tokens { p with pending := rest } = before.length + 1 := by
      change firstEnd tokens - rest.length = _
      omega
    rw [List.tail_cons, hposition, hskip, hsync]
    refine congrArg some ?_
    change _ = firstEnd tokens - (Parser.skip t rest).length
    omega

end Parser.Inside

/-- The rules of the grammar, each with what it is given. -/
inductive Rule where
  | expression | assignment | operand (levels : List Level) | call | finishCall (callee : Node)
  | primary
  | varDeclaration | expressionStatement | printStatement | returnStatement (keyword : Token)
  | parameters | forInitializer | forClause (closing : Kind) (c : Complaint)
  | declaration | functionDeclaration | block | statement | ifStatement | whileStatement
  | forStatement (keyword : Token)

/-- The rule as a step, without its result. -/
def Rule.run (source : Source) (frames : Nat) : Rule → Parse Unit
  | .expression => discard (Parse.expression source frames)
  | .assignment => discard (Parse.assignment source frames)
  | .operand levels => discard (Parse.operand source frames levels)
  | .call => discard (Parse.call source frames)
  | .finishCall callee => discard (Parse.finishCall source frames callee)
  | .primary => discard (Parse.primary source frames)
  | .varDeclaration => discard (Parse.varDeclaration source frames)
  | .expressionStatement => discard (Parse.expressionStatement source frames)
  | .printStatement => discard (Parse.printStatement source frames)
  | .returnStatement keyword => discard (Parse.returnStatement source frames keyword)
  | .parameters => discard (Parse.parameters source)
  | .forInitializer => discard (Parse.forInitializer source frames)
  | .forClause closing c => discard (Parse.forClause source frames closing c)
  | .declaration => discard (Parse.declaration source frames)
  | .functionDeclaration => discard (Parse.functionDeclaration source frames)
  | .block => discard (Parse.block source frames)
  | .statement => discard (Parse.statement source frames)
  | .ifStatement => discard (Parse.ifStatement source frames)
  | .whileStatement => discard (Parse.whileStatement source frames)
  | .forStatement keyword => discard (Parse.forStatement source frames keyword)

theorem Rule.joins (rule : Rule) (s : Seam) (frames : Nat) : Unmoved s (rule.run · frames) := by
  have he := expressionsJoin s frames
  have hs := statementsJoin s frames
  cases rule with
  | expression => exact .map _ he.expression
  | assignment => exact .map _ he.assignment
  | operand levels => exact .map _ (he.operand levels)
  | call => exact .map _ he.call
  | finishCall callee => exact .map _ (he.finishCall callee)
  | primary => exact .map _ he.primary
  | varDeclaration => exact .map _ (varDeclaration_joins s frames)
  | expressionStatement => exact .map _ (expressionStatement_joins s frames)
  | printStatement => exact .map _ (printStatement_joins s frames)
  | returnStatement keyword => exact .map _ (returnStatement_joins s frames keyword)
  | parameters => exact .map _ (parameters_joins s)
  | forInitializer => exact .map _ (forInitializer_joins s frames)
  | forClause closing c => exact .map _ (forClause_joins s frames closing c)
  | declaration => exact .map _ hs.declaration
  | functionDeclaration => exact .map _ hs.functionDeclaration
  | block => exact .map _ hs.block
  | statement => exact .map _ hs.statement
  | ifStatement => exact .map _ hs.ifStatement
  | whileStatement => exact .map _ hs.whileStatement
  | forStatement keyword => exact .map _ (hs.forStatement keyword)

section Turns

variable {α : Type} {source : Source} {p : Parser}

/-- Two sources that differ in the bound on turns alone. -/
def Seam.ofTurns (hl : source.last.isEnd) {turns : Nat} (ht : turns ≤ source.turns) : Seam :=
  ⟨⟨source.last, turns⟩, source, #[], [], hl, ht⟩

theorem Seam.ofTurns_place (hl : source.last.isEnd) {turns : Nat} (ht : turns ≤ source.turns)
    (p : Parser) : (Seam.ofTurns hl ht).place p = p := by
  simp [Seam.place, Seam.ofTurns]

/-- No rule needs more turns than there are tokens and one. -/
theorem turns_eq_few {rule : Source → Parse α} (h : ∀ s, Unmoved s rule) (source : Source)
    (hl : source.last.isEnd) (hp : p.pending.length < source.turns) :
    rule source p = rule ⟨source.last, p.pending.length + 1⟩ p := by
  have hj := (h (.ofTurns hl hp)).eq (Nat.lt_succ_self _) rfl (.inr ⟨rfl, rfl⟩)
  rw [Seam.ofTurns_place, Seam.ofTurns_place] at hj
  exact hj

theorem programOnto_turns_eq_few (source : Source) (frames : Nat) (done : Array Node)
    (hl : source.last.isEnd) (hp : p.pending.length < source.turns) :
    programOnto source frames source.turns done p = programOnto
      ⟨source.last, p.pending.length + 1⟩ frames (p.pending.length + 1) done p := by
  have hj := programOnto_joins (s := .ofTurns hl hp) ⟨rfl, rfl⟩ frames hp done
    (Nat.lt_succ_self p.pending.length) (Nat.le_refl _)
  rw [Seam.ofTurns_place, Seam.ofTurns_place] at hj
  exact hj

end Turns

/-- At a parser's position the list can be read, and steps along the list are the parser's steps. -/
structure Parser.Placed (tokens : List Token) (p : Parser) : Prop where
  bounded : p.position tokens ≤ firstEnd tokens
  peeked : (marked tokens)[p.position tokens]? = some (p.pending.headD (Source.lastOf tokens))
  advanced : advance? (marked tokens) (p.position tokens) =
    some (Parser.position tokens { p with pending := p.pending.tail })
  synchronized : synchronize? (marked tokens) (p.position tokens) =
    some (p.synchronize.position tokens)

theorem Parser.Inside.placed {tokens : List Token} {p : Parser} (h : p.Inside tokens) :
    p.Placed tokens :=
  ⟨Nat.sub_le _ _, h.peeked, h.advanced, h.synchronized⟩

/-- A step from one parser to another goes on in the list and stays inside, at the same depth of
functions. -/
structure Parser.Onward (tokens : List Token) (p q : Parser) : Prop where
  inside : q.Inside tokens
  position_le : p.position tokens ≤ q.position tokens
  functionDepth : q.functionDepth = p.functionDepth

theorem Parser.Inside.onward {tokens : List Token} {p q : Parser} (h : p.Inside tokens)
    (ha : Advances p q) : p.Onward tokens q :=
  ⟨h.advances ha, Nat.sub_le_sub_left ha.length_le _, ha.functionDepth⟩

theorem Parser.Inside.position_lt {tokens : List Token} {p q : Parser} (h : p.Inside tokens)
    (hlt : q.pending.length < p.pending.length) : p.position tokens < q.position tokens := by
  have hadd := h.position_add
  unfold Parser.position at hadd ⊢
  omega

theorem Parser.Inside.length_lt {tokens : List Token} {p : Parser} (h : p.Inside tokens) :
    p.pending.length < (Source.ofTokens tokens).turns :=
  Nat.lt_succ_of_le (h.length_le.trans (List.takeWhile_prefix _).length_le)

/-- One turn of the loop over a program leads from one parser to another. -/
def TurnsTo (source : Source) (frames : Nat) (p q : Parser) : Prop :=
  ∃ first rest, p.pending = first :: rest ∧ q = (programTurn source frames first p).2

/-- The loop over a program is a chain of turns up to the end. -/
theorem programOnto_turnsTo {source : Source} (hl : source.last.isEnd) (frames : Nat) {turns : Nat}
    (done : Array Node) {p : Parser} (hp : p.pending.length < turns) :
    Relation.ReflTransGen (TurnsTo source frames) p (programOnto source frames turns done p).2 ∧
      (programOnto source frames turns done p).2.pending = [] := by
  induction turns generalizing done p with
  | zero => exact absurd hp (Nat.not_lt_zero _)
  | succ turns ih =>
    cases hq : p.pending with
    | nil => rw [programOnto_nil hq]; exact ⟨.refl, hq⟩
    | cons first rest =>
      have hlt := programTurn_length_lt hl frames first p (by simp [hq])
      rw [programOnto_cons hq]
      obtain ⟨hchain, hend⟩ := ih ((programTurn source frames first p).1.elim done done.push)
        (p := (programTurn source frames first p).2) (by omega)
      exact ⟨hchain.head ⟨first, rest, hq, rfl⟩, hend⟩

/-- A turn of the loop over a block is a declaration that is begun before the end. -/
theorem untilBrace_succ {source : Source} {item : Parse (Option Node)} (turns : Nat)
    (done : Array Node) (p : Parser) :
    untilBrace source item (turns + 1) done p =
      if p.pending = [] ∨ (p.pending.headD source.last).kind = .rightBrace then
        (.ok done.toList, p)
      else
        match item p with
        | (.ok o, q) => untilBrace source item turns (o.elim done done.push) q
        | (.error e, q) => (.error e, q) := by
  have hcondition : ((decide ((p.pending.headD source.last).kind = .rightBrace) ||
      p.pending.isEmpty) = true) =
      (p.pending = [] ∨ (p.pending.headD source.last).kind = .rightBrace) := by
    rw [Bool.or_eq_true, decide_eq_true_eq, List.isEmpty_iff, or_comm]
  rw [untilBrace]
  simp only [bind_apply, nextIs_apply, atEnd_apply, hcondition]
  split
  · rfl
  · rw [bind_apply]
    rcases item p with ⟨e | _ | n, q⟩ <;> rfl

/-- What stands behind an end mark does not belong to the tokens that a parse reads. -/
theorem ofTokens_cut (before after : List Token) {mark : Token} (hm : mark.isEnd = true) :
    Parser.ofTokens (before ++ mark :: after) = .ofTokens (before ++ [mark]) ∧
      Source.lastOf (before ++ mark :: after) = Source.lastOf (before ++ [mark]) := by
  have htake : (before ++ mark :: after).takeWhile (!·.isEnd) =
      (before ++ [mark]).takeWhile (!·.isEnd) := by
    simp [List.takeWhile_append, hm]
  have hfind : (before ++ mark :: after).find? Token.isEnd =
      (before ++ [mark]).find? Token.isEnd := by
    simp [List.find?_append, hm]
  have hsome : ((before ++ [mark]).find? Token.isEnd).isSome := by
    simp [List.find?_append, hm]
  obtain ⟨t, ht⟩ := Option.isSome_iff_exists.1 hsome
  refine ⟨by rw [Parser.ofTokens, Parser.ofTokens, htake], ?_⟩
  rw [Source.lastOf, Source.lastOf, hfind, ht]

theorem parse_cut (frames : Nat) {before after : List Token} {mark : Token}
    (hm : mark.isEnd = true) :
    parse frames (before ++ mark :: after) = parse frames (before ++ [mark]) := by
  have hfew := fun tokens : List Token => programOnto_turns_eq_few (.ofTokens tokens) frames #[]
    (Source.last_isEnd tokens) (Parser.Inside.ofTokens tokens).length_lt
  obtain ⟨htokens, hlast⟩ := ofTokens_cut before after hm
  unfold parse
  dsimp only
  rw [hfew, hfew, htokens]
  simp only [Source.ofTokens, hlast]

/-- What a parse with so many frames does with the positions in its token list. The rules that it calls
have any number of frames left. -/
structure StaysInside (frames : Nat) (tokens : List Token) : Prop where
  /-- Wherever the parser is, the list can be read there: there is a token at the position, and a token
  before it where one is looked at. -/
  placed : ∀ p : Parser, p.Inside tokens → p.Placed tokens
  /-- A `for` loop is told the token before its position. -/
  keyword : ∀ (left : Nat) (p : Parser) (t : Token) (rest : List Token), p.Inside tokens →
    p.pending = t :: rest → t.kind = .forWord →
    statement (.ofTokens tokens) (left + 1) p =
        forStatement (.ofTokens tokens) left t { p with pending := rest } ∧
      previous? (marked tokens) (Parser.position tokens { p with pending := rest }) = some t
  /-- No rule goes back, or beyond the first end mark, or leaves the depth of functions changed. -/
  onward : ∀ (rule : Rule) (left : Nat) (p : Parser), p.Inside tokens →
    p.Onward tokens (rule.run (.ofTokens tokens) left p).2
  /-- No rule depends on a bound on the turns of its loops. -/
  unbounded : ∀ (rule : Rule) (left turns : Nat) (p : Parser), p.Inside tokens →
    p.pending.length < turns →
    rule.run ⟨Source.lastOf tokens, turns⟩ left p = rule.run (.ofTokens tokens) left p
  /-- A declaration that is begun before the end and returns takes a token. -/
  declaration : ∀ (left : Nat) (p q : Parser) (o : Option Node), p.Inside tokens →
    p.pending ≠ [] → declaration (.ofTokens tokens) left p = (.ok o, q) →
    p.position tokens < q.position tokens
  /-- A turn of the loop over a block is such a declaration. -/
  blockTurn : ∀ (left turns : Nat) (done : Array Node) (p : Parser), p.Inside tokens →
    let statements turns done :=
      untilBrace (.ofTokens tokens) (Parse.declaration (.ofTokens tokens) left) turns done
    statements (turns + 1) done p =
      if p.pending = [] ∨ (p.pending.headD (Source.lastOf tokens)).kind = .rightBrace then
        (.ok done.toList, p)
      else
        match Parse.declaration (.ofTokens tokens) left p with
        | (.ok o, q) => statements turns (o.elim done done.push) q
        | (.error e, q) => (.error e, q)
  /-- A turn of the loop over the program takes a token, and it leaves all functions. -/
  programTurn : ∀ p : Parser,
    Relation.ReflTransGen (TurnsTo (.ofTokens tokens) frames) (.ofTokens tokens) p →
    p.Inside tokens ∧ p.functionDepth = 0 ∧
      ∀ q, TurnsTo (.ofTokens tokens) frames p q → p.position tokens < q.position tokens
  /-- The turns come to the end, and then the parse is done. -/
  ends : ∃ (statements : Array Node) (q : Parser),
    Relation.ReflTransGen (TurnsTo (.ofTokens tokens) frames) (.ofTokens tokens) q ∧
      q.position tokens = firstEnd tokens ∧
      parse frames tokens = ⟨statements.toList, q.diagnostics.toList⟩ ∧
      ∀ turns, firstEnd tokens < turns →
        programOnto ⟨Source.lastOf tokens, turns⟩ frames turns #[] (.ofTokens tokens) =
          (statements, q)
  /-- What follows the first end mark has no influence. -/
  cut : ∀ (before after : List Token) (mark : Token), tokens = before ++ mark :: after →
    mark.isEnd = true → parse frames tokens = parse frames (before ++ [mark])

theorem parser_stays_inside (frames : Nat) (tokens : List Token) : StaysInside frames tokens := by
  have hl := Source.last_isEnd tokens
  exact {
    placed := fun p hp => hp.placed
    keyword := by
      intro left p t rest hp ht hkind
      refine ⟨?_, hp.previous ht⟩
      simp only [statement, bind_apply, peek_apply, ht, List.headD_cons, hkind, advance_apply,
        List.tail_cons]
    onward := fun rule left p hp => by
      have hjoins := rule.joins (.ofTurns hl (Nat.le_refl _)) left
      exact hp.onward (hjoins p hp.length_lt).advances
    unbounded := fun rule left turns p hp ht => by
      rw [turns_eq_few (rule.joins · left) (.ofTokens tokens) hl hp.length_lt,
        turns_eq_few (rule.joins · left) ⟨Source.lastOf tokens, turns⟩ hl ht]
      rfl
    declaration := fun left p q o hp hne he => by
      have hlt := (statementsTake hl left).declaration.length_lt (p := p) (o := o) (by rw [he]) hne
      rw [he] at hlt
      exact hp.position_lt hlt
    blockTurn := fun left turns done p _ => untilBrace_succ turns done p
    programTurn := fun p hp => by
      have hinside : p.Inside tokens ∧ p.functionDepth = 0 := by
        induction hp with
        | refl => exact ⟨.ofTokens tokens, rfl⟩
        | tail _ hturn ih =>
          obtain ⟨first, rest, -, rfl⟩ := hturn
          have ha := programTurn_advances hl frames first
          exact ⟨ih.1.advances (ha _), (ha _).functionDepth.trans ih.2⟩
      refine ⟨hinside.1, hinside.2, ?_⟩
      rintro q ⟨first, rest, hfirst, rfl⟩
      exact hinside.1.position_lt (programTurn_length_lt hl frames first p (by simp [hfirst]))
    ends := by
      have hp := (Parser.Inside.ofTokens tokens).length_lt
      obtain ⟨hchain, hend⟩ := programOnto_turnsTo hl frames #[] hp
      refine ⟨_, _, hchain, by rw [Parser.position, hend]; rfl, rfl, fun turns ht => ?_⟩
      have hmany := programOnto_turns_eq_few (p := .ofTokens tokens) ⟨Source.lastOf tokens, turns⟩
        frames #[] hl ht
      exact hmany.trans (programOnto_turns_eq_few (.ofTokens tokens) frames #[] hl hp).symm
    cut := fun before after mark htokens hm => by
      rw [htokens]
      exact parse_cut frames hm }

end Lox
