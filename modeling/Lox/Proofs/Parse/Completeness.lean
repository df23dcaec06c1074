import Lox.Proofs.Parse.Reads
import Lox.Proofs.Parse.Soundness

/-!
Completeness of the parse: a rule of the parser reads every phrase of the grammar, before anything
that would not go on with it, and gives its tree.
-/

set_option autoImplicit false

namespace Lox

namespace Parse

open Grammar

/-- The rules of expressions with some frames read expressions. -/
structure ExpressionsComplete (source : Source) (frames : Nat) : Prop where
  expression : ∀ {fn ts n rest}, Expression ts n → Stops followers rest →
    Reads source.turns fn (expression source frames) ts n rest
  assignment : ∀ {fn ts n rest}, Expression ts n → Stops followers rest →
    Reads source.turns fn (assignment source frames) ts n rest
  operand : ∀ {fn rank ts n rest}, rank.isOperand → Phrase rank ts n → Stops rank.followers rest →
    Reads source.turns fn (operand source frames rank.levels) ts n rest
  call : ∀ {fn ts n rest}, Phrase .call ts n → Stops [.leftParen] rest →
    Reads source.turns fn (call source frames) ts n rest
  finishCall : ∀ {fn callee ts n rest}, CallEnd callee ts n →
    Reads source.turns fn (finishCall source frames callee) ts n rest
  primary : ∀ {fn ts n rest}, Phrase .primary ts n →
    Reads source.turns fn (primary source frames) ts n rest

variable {source : Source} {frames : Nat} {fn : Bool} {ts rest : List Token} {n : Node}

namespace ExpressionsComplete

theorem assignment_succ (hl : source.last.isEnd) (ih : ExpressionsComplete source frames)
    (h : Expression ts n) (hrest : Stops followers rest) :
    Reads source.turns fn (Parse.assignment source (frames + 1)) ts n rest := by
  have hop : Rank.isOperand .or := .inl (by decide)
  simp only [Parse.assignment]
  cases h with
  | tighter hr h =>
    cases hr
    have hequal : Stops [.equal] rest := hrest.mono (by decide)
    have hor : Stops (Rank.followers .or) rest := hrest.mono (by decide)
    exact (ih.operand hop h hor).bindLast (.accept_none hl (by decide) hequal (.pure n))
  | @assign name equals ts n hn he h =>
    have hname := Phrase.ofPrimary (.variable hn) .or
    have hequal : Stops (Rank.followers .or) (equals :: ts ++ rest) :=
      .cons (by simp [he, Rank.followers, followers])
    refine (ih.operand hop hname hequal).bind (.accept_some (by simp [he]) ?_)
    exact (ih.assignment h hrest).bindLast (.pure _)
  | joined _ ho => simp [Rank.operators] at ho

theorem operand_infix (hl : source.last.isEnd) (ih : ExpressionsComplete source frames)
    {rank : Rank} (hi : rank.operators ≠ []) (h : Phrase rank ts n)
    (hrest : Stops rank.followers rest) :
    Reads source.turns fn (Parse.operand source (frames + 1) rank.levels) ts n rest := by
  obtain ⟨next, level, hr, hnext, hlevels, hops, hbuild⟩ := Rank.levels_eq hi
  rw [hlevels]
  simp only [Parse.operand, hops, hbuild]
  obtain ⟨us, vs, first, rfl, hf, hc⟩ := (phrase_infix_iff hr hi).1 h
  have hfirst : Reads source.turns fn (Parse.operand source frames next.levels) us first
      (vs ++ rest) := ih.operand hnext hf (hrest.afterOperand hr hc)
  refine .within fun hlt => hfirst.bind (.extend (fun n => ?_) ?_ hc _ (by simp at hlt; omega))
  · have hops : Stops rank.operators rest := hrest.mono rank.operators_followers
    exact .accept_none hl rank.eof_notMem_operators hops (.pure none)
  · rintro l m n us vs ⟨ho, hu⟩ hs
    refine ⟨by simp, .accept_some ho ?_⟩
    exact (ih.operand hnext hu (hrest.afterOperand hr hs)).bindLast (.pure _)

theorem operand_unary (hl : source.last.isEnd) (ih : ExpressionsComplete source frames)
    (h : Phrase .unary ts n) (hrest : Stops [.leftParen] rest) :
    Reads source.turns fn (Parse.operand source (frames + 1) []) ts n rest := by
  simp only [Parse.operand]
  cases h with
  | tighter hr h =>
    cases hr
    have hhead : Stops [.bang, .minus] (ts ++ rest) := .of_head h.callHead (by decide)
    exact .accept_none hl (by decide) hhead (ih.call h hrest)
  | unary ho h =>
    refine .accept_some (by simpa using ho) ?_
    have hunary : Rank.isOperand .unary := .inr rfl
    exact (ih.operand hunary h hrest).bindLast (.pure _)
  | joined _ ho => simp [Rank.operators] at ho

theorem call_succ (hl : source.last.isEnd) (ih : ExpressionsComplete source frames)
    (h : Phrase .call ts n) (hrest : Stops [.leftParen] rest) :
    Reads source.turns fn (Parse.call source (frames + 1)) ts n rest := by
  simp only [Parse.call]
  obtain ⟨us, vs, first, rfl, hf, hc⟩ := phrase_call_iff.1 h
  refine .within fun hlt => (ih.primary hf).bind
    (.extend (fun n => ?_) ?_ hc _ (by simp at hlt; omega))
  · exact .accept_none hl (by decide) hrest (.pure none)
  · rintro l m n us vs ⟨ho, h⟩ _
    exact ⟨by simp, .accept_some (by simpa using ho) ((ih.finishCall h).bindLast (.pure _))⟩

theorem finishCall_succ (hl : source.last.isEnd) (ih : ExpressionsComplete source frames)
    {callee : Node} (h : CallEnd callee ts n) :
    Reads source.turns fn (Parse.finishCall source (frames + 1) callee) ts n rest := by
  simp only [Parse.finishCall]
  cases h with
  | bare hc => exact .nextIs_true rfl hc ((Reads.pure _).bind (.expectLast hc (.pure _)))
  | @full us ns closing ha hs hc =>
    refine .nextIs_false hl (by decide) ?_ (.bind ?_ (.expect hc (.pure _)))
    · rw [List.append_assoc]
      exact .of_head ha.head (by decide)
    · refine .within fun hlt => ?_
      refine .separated hl (.cons (by simp [hc])) ?_ ha.separated _ #[] (by simp at hlt; omega)
        (by simpa [mostArguments] using hs)
      rintro ts n us h (rfl | ⟨comma, vs, rfl, hcomma⟩)
      · exact ih.expression h (.cons (by simp [hc, followers]))
      · exact ih.expression h (.cons (by simp [hcomma, followers]))

theorem primary_succ (ih : ExpressionsComplete source frames)
    (h : Phrase .primary ts n) :
    Reads source.turns fn (Parse.primary source (frames + 1)) ts n rest := by
  simp only [Parse.primary]
  cases h with
  | tighter hr => simp [Rank.tighter?] at hr
  | joined hr ho => simp [Rank.operators] at ho
  | literal ht =>
    refine .peek ?_
    rw [if_pos (isLiteral_iff.2 ht)]
    exact .advance (.pure _)
  | «variable» ht =>
    refine .peek ?_
    simp only [ht, Kind.isLiteral]
    exact .advance (.pure _)
  | grouping ho h hc =>
    refine .peek ?_
    simp only [ho, Kind.isLiteral]
    refine .advance (.bind (ih.expression h (.cons ?_)) (.expect hc (.pure _)))
    simp [hc, followers]

end ExpressionsComplete

theorem expressionsComplete (hl : source.last.isEnd) (frames : Nat) :
    ExpressionsComplete source frames := by
  induction frames with
  | zero => constructor <;> intros <;> exact .exhausted _ _ _
  | succ frames ih =>
    refine ⟨ih.assignment, ih.assignment_succ hl, fun {_ rank _ _ _} hr h hrest => ?_,
      ih.call_succ hl, ih.finishCall_succ hl, ih.primary_succ⟩
    obtain hi | rfl := hr
    · exact ih.operand_infix hl hi h hrest
    · exact ih.operand_unary hl h hrest

section Clauses

variable (hl : source.last.isEnd)
include hl

theorem varDeclaration_complete (h : Variable ts n) :
    Reads source.turns fn (varDeclaration source frames) ts n rest := by
  have he := expressionsComplete hl frames
  simp only [varDeclaration]
  cases h with
  | bare hn hs =>
    refine .expect hn (.accept_none hl (by decide) (.cons (by simp [hs])) ?_)
    exact (Reads.pure _).bind (.expectLast hs (.pure _))
  | initialized hn heq h hs =>
    refine .expect hn (.accept_some (by simp [heq]) ?_)
    exact (he.expression h (.cons (by simp [hs, followers]))).bind (.expect hs (.pure _))

theorem expressionStatement_complete (h : ExpressionStatement ts n) :
    Reads source.turns fn (expressionStatement source frames) ts n rest := by
  have he := expressionsComplete hl frames
  simp only [expressionStatement]
  obtain ⟨h, hs⟩ := h
  exact (he.expression h (.cons (by simp [hs, followers]))).bind (.expect hs (.pure _))

theorem printStatement_complete {semicolon : Token} (h : Expression ts n)
    (hs : semicolon.kind = .semicolon) : Reads source.turns fn (printStatement source frames)
      (ts ++ [semicolon]) (.print n) rest := by
  have he := expressionsComplete hl frames
  simp only [printStatement]
  exact (he.expression h (.cons (by simp [hs, followers]))).bind (.expect hs (.pure _))

theorem parameters_complete {ns : List Node} {closing : Token} (h : Parameters ts ns)
    (hc : closing.kind = .rightParen) :
    Reads source.turns fn (parameters source) ts ns (closing :: rest) := by
  simp only [parameters]
  cases h with
  | none => exact .nextIs_true rfl hc (.pure [])
  | some h hs =>
    have hsep := names_iff.1 h
    refine .nextIs_false hl (by decide) (.of_head hsep.name_head (by decide)) ?_
    refine .within fun hlt => ?_
    refine .separated hl (.cons (by simp [hc])) ?_ hsep _ #[] (by simp at hlt; omega)
      (by simpa [mostArguments] using hs)
    rintro _ _ us ⟨t, rfl, ht, rfl⟩ _
    rw [map_eq_pure_bind]
    exact .expect ht (.pure _)

theorem forInitializer_complete {o : Option Node} (h : Initializer ts o.toList) :
    Reads source.turns fn (forInitializer source frames) ts o rest := by
  simp only [forInitializer]
  generalize ho : o.toList = before at h
  cases h with
  | none hs =>
    obtain rfl : o = none := by simpa using ho
    exact .accept_some (by simp [hs]) (.pure none)
  | var hk h =>
    obtain rfl : o = some _ := by simpa using ho
    refine .accept_none hl (by decide) (.cons (by simp [hk])) (.accept_some (by simp [hk]) ?_)
    exact (varDeclaration_complete hl h).bindLast (.pure _)
  | expression h =>
    obtain rfl : o = some _ := by simpa using ho
    have hhead := h.head
    refine .accept_none hl (by decide) (.of_head hhead (by decide)) ?_
    refine .accept_none hl (by decide) (.of_head hhead (by decide)) ?_
    exact (expressionStatement_complete hl h).bindLast (.pure _)

theorem forClause_complete {o : Option Node} {t : Token} {closing : Kind} {c : Complaint}
    (h : o.elim (ts = []) (Expression ts)) (ht : t.kind = closing) (hk : closing ≠ .eof)
    (hf : closing ∉ followers) (ho : closing ∉ openers) :
    Reads source.turns fn (forClause source frames closing c) (ts ++ [t]) o rest := by
  have he := expressionsComplete hl frames
  simp only [forClause]
  cases o with
  | none =>
    obtain rfl : ts = [] := h
    exact .nextIs_true rfl ht ((Reads.pure _).bind (.expectLast ht (.pure _)))
  | some n =>
    have hh : Expression ts n := h
    have hopen : Stops [closing] (ts ++ ([t] ++ rest)) := .of_head hh.head fun k hk hc =>
      ho (by rwa [← List.mem_singleton.1 hc])
    refine .nextIs_false hl hk (by simpa using hopen) (.bind ?_ (.expect ht (.pure _)))
    exact .map (he.expression hh (.cons (by rwa [ht])))

theorem returnStatement_complete {keyword semicolon : Token} {o : Option Node}
    (h : o.elim (ts = []) (Expression ts)) (hs : semicolon.kind = .semicolon) :
    Reads source.turns true (returnStatement source frames keyword) (ts ++ [semicolon])
      (.ret (.token keyword) (o.getD .missing)) rest := by
  have he := expressionsComplete hl frames
  have hrest : Reads source.turns true (do
      let value ← if ← nextIs source .semicolon then pure .missing else expression source frames
      let _ ← expect source .semicolon (.missing ';' .returnValue)
      return Node.ret (.token keyword) value) (ts ++ [semicolon])
      (.ret (.token keyword) (o.getD .missing)) rest := by
    cases o with
    | none =>
      obtain rfl : ts = [] := h
      exact .nextIs_true rfl hs ((Reads.pure _).bind (.expectLast hs (.pure _)))
    | some n =>
      have hh : Expression ts n := h
      have hopen : Stops [.semicolon] (ts ++ ([semicolon] ++ rest)) := .of_head hh.head (by decide)
      refine .nextIs_false hl (by decide) (by simpa using hopen) ?_
      exact (he.expression hh (.cons (by simp [hs, followers]))).bind (.expect hs (.pure _))
  intro d k hlt hd
  have hk : k ≠ 0 := hd.2 rfl
  simp only [returnStatement, bind_apply, get_apply, hk, if_false]
  exact hrest d k hlt hd

end Clauses

theorem untilBrace_complete {limit : Nat} {item : Parse (Option Node)} {closing : Token}
    (hl : source.last.isEnd) (hc : closing.kind = .rightBrace)
    (hi : ∀ {ts n rest}, Declaration fn ts n → Stops [.elseWord] rest →
      Reads limit fn item ts (some n) rest) {ts : List Token} {ns : List Node} (turns : Nat)
    (done : Array Node) (hts : ts.length < turns) : Declarations fn ts ns →
    Reads limit fn (untilBrace source item turns done) ts (done.toList ++ ns) (closing :: rest)
  | .nil => by
    cases turns with
    | zero => omega
    | succ turns =>
      simp only [untilBrace]
      refine .nextIs_true rfl hc (.look atEnd_apply fun _ _ => ?_)
      simpa using Reads.pure done.toList
  | @Declarations.cons _ _ us n ns h hs => by
    obtain ⟨t, vs, rfl, ht⟩ := h.head
    cases turns with
    | zero => omega
    | succ turns =>
      simp only [untilBrace]
      have hbrace : Stops [.rightBrace] (t :: vs ++ us ++ closing :: rest) :=
        .cons fun hk => absurd (ht) (by rw [List.mem_singleton.1 hk]; decide)
      refine .nextIs_false hl (by decide) hbrace (.look atEnd_apply fun _ _ => ?_)
      have helse : Stops [.elseWord] (us ++ closing :: rest) :=
        hs.stops (by decide) (.cons (by simp [hc]))
      refine .bind (hi h helse) ?_
      have hus : us.length < turns := by simp at hts; omega
      simpa using untilBrace_complete hl hc hi turns (done.push n) hus hs

theorem initializer_clause {before : List Node} (h : Initializer ts before) :
    ∃ o : Option Node, o.toList = before := by
  cases h with
  | none => exact ⟨none, rfl⟩
  | var => exact ⟨some _, rfl⟩
  | expression => exact ⟨some _, rfl⟩

theorem condition_clause {keyword : Token} {c : Node} (h : Condition keyword ts c) :
    ∃ o : Option Node,
      o.getD (.literal (.token ⟨.trueWord, .text "true", .null, keyword.line⟩)) = c ∧
      o.elim (ts = []) (Expression ts) := by
  cases h with
  | none => exact ⟨none, rfl, rfl⟩
  | some h => exact ⟨some _, rfl, h⟩

theorem increment_clause {after : List Node} (h : Increment ts after) :
    ∃ o : Option Node, o.toList.map .expression = after ∧ o.elim (ts = []) (Expression ts) := by
  cases h with
  | none => exact ⟨none, rfl, rfl⟩
  | some h => exact ⟨some _, rfl, h⟩

/-- The rules of statements with some frames read statements. -/
structure StatementsComplete (source : Source) (frames : Nat) : Prop where
  declaration : ∀ {fn ts n rest}, Declaration fn ts n → Stops [.elseWord] rest →
    Reads source.turns fn (declaration source frames) ts (some n) rest
  block : ∀ {fn ts ns closing rest}, Declarations fn ts ns → closing.kind = .rightBrace →
    Reads source.turns fn (block source frames) (ts ++ [closing]) ns rest
  function : ∀ {fn name opening ts params closing brace us body ending rest},
    name.kind = .identifier → opening.kind = .leftParen → Parameters ts params →
    closing.kind = .rightParen → brace.kind = .leftBrace → Declarations true us body →
    ending.kind = .rightBrace → Reads source.turns fn (functionDeclaration source frames)
      (name :: opening :: (ts ++ closing :: brace :: (us ++ [ending])))
      (.function (.token name) params (.block body)) rest
  statement : ∀ {fn dangling ts n rest}, Statement fn dangling ts n →
    (dangling = true → Stops [.elseWord] rest) →
    Reads source.turns fn (statement source frames) ts n rest
  ifThen : ∀ {fn dangling opening ts c closing us n rest}, opening.kind = .leftParen →
    Expression ts c → closing.kind = .rightParen → Statement fn dangling us n →
    Stops [.elseWord] rest → Reads source.turns fn (ifStatement source frames)
      (opening :: (ts ++ closing :: us)) (.ifElse c n .missing) rest
  ifElse : ∀ {fn dangling opening ts c closing us n other vs e rest}, opening.kind = .leftParen →
    Expression ts c → closing.kind = .rightParen → Statement fn false us n →
    other.kind = .elseWord → Statement fn dangling vs e →
    (dangling = true → Stops [.elseWord] rest) → Reads source.turns fn (ifStatement source frames)
      (opening :: (ts ++ closing :: (us ++ other :: vs))) (.ifElse c n e) rest
  whileDo : ∀ {fn dangling opening ts c closing us n rest}, opening.kind = .leftParen →
    Expression ts c → closing.kind = .rightParen → Statement fn dangling us n →
    (dangling = true → Stops [.elseWord] rest) → Reads source.turns fn
      (whileStatement source frames) (opening :: (ts ++ closing :: us)) (.whileDo c n) rest
  forLoop : ∀ {fn dangling keyword opening ts before us c semicolon vs after closing ws n rest},
    opening.kind = .leftParen → Initializer ts before → Condition keyword us c →
    semicolon.kind = .semicolon → Increment vs after → closing.kind = .rightParen →
    Statement fn dangling ws n → (dangling = true → Stops [.elseWord] rest) →
    Reads source.turns fn (forStatement source frames keyword)
      (opening :: (ts ++ (us ++ semicolon :: (vs ++ closing :: ws))))
      (.block (before ++ [.whileDo c (.block (n :: after))])) rest

namespace StatementsComplete

variable (hl : source.last.isEnd) (ih : StatementsComplete source frames)
include hl ih

theorem statement_succ {dangling : Bool} (h : Statement fn dangling ts n)
    (hrest : dangling = true → Stops [.elseWord] rest) :
    Reads source.turns fn (Parse.statement source (frames + 1)) ts n rest := by
  simp only [Parse.statement]
  cases h with
  | expression h =>
    obtain ⟨t, us, rfl, ht⟩ := h.head
    refine .peek ?_
    split
    case h_7 => exact expressionStatement_complete hl h
    all_goals next hk => rw [hk] at ht; exact absurd ht (by decide)
  | print hk h hs =>
    refine .peek ?_
    rw [hk]
    exact .advance (printStatement_complete hl h hs)
  | bareReturn hk hs =>
    refine .peek ?_
    rw [hk]
    exact .advance (returnStatement_complete hl (o := none) rfl hs)
  | «return» hk h hs =>
    refine .peek ?_
    rw [hk]
    exact .advance (returnStatement_complete hl (o := some _) h hs)
  | block ho h hc =>
    refine .peek ?_
    rw [ho]
    exact .advance (.map (ih.block h hc))
  | ifThen hk ho h hc hn =>
    refine .peek ?_
    rw [hk]
    exact .advance (ih.ifThen ho h hc hn (hrest rfl))
  | ifElse hk ho h hc hn he hm =>
    refine .peek ?_
    rw [hk]
    exact .advance (by simpa using ih.ifElse ho h hc hn he hm hrest)
  | whileDo hk ho h hc hn =>
    refine .peek ?_
    rw [hk]
    exact .advance (ih.whileDo ho h hc hn hrest)
  | forLoop hk ho hi hd hs ha hc hn =>
    refine .peek ?_
    rw [hk]
    exact .advance (by simpa using ih.forLoop ho hi hd hs ha hc hn hrest)

theorem declaration_succ (h : Declaration fn ts n) (hrest : Stops [.elseWord] rest) :
    Reads source.turns fn (Parse.declaration source (frames + 1)) ts (some n) rest := by
  simp only [Parse.declaration]
  refine .recover ?_
  cases h with
  | var hk h => exact .accept_some (by simp [hk]) (varDeclaration_complete hl h)
  | function hk hn ho hp hc hb hd he =>
    refine .accept_none hl (by decide) (.cons (by simp [hk])) (.accept_some (by simp [hk]) ?_)
    simpa using ih.function hn ho hp hc hb hd he
  | statement h =>
    refine .accept_none hl (by decide) (.of_head h.head (by decide)) ?_
    refine .accept_none hl (by decide) (.of_head h.head (by decide)) ?_
    exact ih.statement h fun _ => hrest

theorem block_succ {ns : List Node} {closing : Token} (h : Declarations fn ts ns)
    (hc : closing.kind = .rightBrace) :
    Reads source.turns fn (Parse.block source (frames + 1)) (ts ++ [closing]) ns rest := by
  simp only [Parse.block]
  refine .within fun hlt => .bind ?_ (.expectLast hc (.pure _))
  exact untilBrace_complete hl hc ih.declaration _ #[] (by simp at hlt; omega) h

theorem function_succ {name opening closing brace ending : Token} {us : List Token}
    {params body : List Node} (hn : name.kind = .identifier) (ho : opening.kind = .leftParen)
    (hp : Parameters ts params) (hc : closing.kind = .rightParen) (hb : brace.kind = .leftBrace)
    (hd : Declarations true us body) (he : ending.kind = .rightBrace) :
    Reads source.turns fn (Parse.functionDeclaration source (frames + 1))
      (name :: opening :: (ts ++ closing :: brace :: (us ++ [ending])))
      (.function (.token name) params (.block body)) rest := by
  simp only [Parse.functionDeclaration]
  refine .expect hn (.expect ho (.bind (parameters_complete hl hp hc) ?_))
  exact .expect hc (.expect hb ((Reads.inFunction (ih.block hd he)).bindLast (.pure _)))

theorem ifThen_succ {dangling : Bool} {opening closing : Token} {us : List Token} {c : Node}
    (ho : opening.kind = .leftParen) (h : Expression ts c) (hc : closing.kind = .rightParen)
    (hn : Statement fn dangling us n) (hrest : Stops [.elseWord] rest) :
    Reads source.turns fn (Parse.ifStatement source (frames + 1)) (opening :: (ts ++ closing :: us))
      (.ifElse c n .missing) rest := by
  have he := expressionsComplete hl frames
  simp only [Parse.ifStatement]
  refine .expect ho (.bind (he.expression h (.cons (by simp [hc, followers]))) (.expect hc ?_))
  refine (ih.statement hn fun _ => hrest).bindLast (.accept_none hl (by decide) hrest (.pure _))

theorem ifElse_succ {dangling : Bool} {opening closing other : Token} {us vs : List Token}
    {c e : Node} (ho : opening.kind = .leftParen) (h : Expression ts c)
    (hc : closing.kind = .rightParen) (hn : Statement fn false us n)
    (hother : other.kind = .elseWord) (hm : Statement fn dangling vs e)
    (hrest : dangling = true → Stops [.elseWord] rest) :
    Reads source.turns fn (Parse.ifStatement source (frames + 1))
      (opening :: (ts ++ closing :: (us ++ other :: vs))) (.ifElse c n e) rest := by
  have he := expressionsComplete hl frames
  simp only [Parse.ifStatement]
  refine .expect ho (.bind (he.expression h (.cons (by simp [hc, followers]))) (.expect hc ?_))
  refine (ih.statement hn (by simp)).bind (.accept_some (by simp [hother]) ?_)
  exact (ih.statement hm hrest).bindLast (.pure _)

theorem whileDo_succ {dangling : Bool} {opening closing : Token} {us : List Token} {c : Node}
    (ho : opening.kind = .leftParen) (h : Expression ts c) (hc : closing.kind = .rightParen)
    (hn : Statement fn dangling us n) (hrest : dangling = true → Stops [.elseWord] rest) :
    Reads source.turns fn (Parse.whileStatement source (frames + 1))
      (opening :: (ts ++ closing :: us)) (.whileDo c n) rest := by
  have he := expressionsComplete hl frames
  simp only [Parse.whileStatement]
  refine .expect ho (.bind (he.expression h (.cons (by simp [hc, followers]))) (.expect hc ?_))
  exact (ih.statement hn hrest).bindLast (.pure _)

theorem forLoop_succ {dangling : Bool} {keyword opening semicolon closing : Token}
    {us vs ws : List Token} {before after : List Node} {c : Node} (ho : opening.kind = .leftParen)
    (hi : Initializer ts before) (hd : Condition keyword us c) (hs : semicolon.kind = .semicolon)
    (ha : Increment vs after) (hc : closing.kind = .rightParen) (hn : Statement fn dangling ws n)
    (hrest : dangling = true → Stops [.elseWord] rest) :
    Reads source.turns fn (Parse.forStatement source (frames + 1) keyword)
      (opening :: (ts ++ (us ++ semicolon :: (vs ++ closing :: ws))))
      (.block (before ++ [.whileDo c (.block (n :: after))])) rest := by
  simp only [Parse.forStatement]
  obtain ⟨before, rfl⟩ := initializer_clause hi
  obtain ⟨c, rfl, hcond⟩ := condition_clause hd
  obtain ⟨after, rfl, hafter⟩ := increment_clause ha
  rw [← Node.forLoop_eq]
  refine .expect ho (.bind (forInitializer_complete hl hi) ?_)
  have hcondition : Reads source.turns fn (forClause source frames .semicolon
      (.missing ';' .loopCondition)) (us ++ [semicolon]) c (vs ++ [closing] ++ ws ++ rest) :=
    forClause_complete hl hcond hs (by decide) (by decide) (by decide)
  have hincrement : Reads source.turns fn (forClause source frames .rightParen
      (.missing ')' .forClauses)) (vs ++ [closing]) after (ws ++ rest) :=
    forClause_complete hl hafter hc (by decide) (by decide) (by decide)
  have hbody : Reads source.turns fn (Parse.statement source frames >>= fun n =>
      pure (Node.forLoop keyword before c after n)) ws (.forLoop keyword before c after n) rest :=
    (ih.statement hn hrest).bindLast (.pure _)
  simpa using hcondition.bind (hincrement.bind hbody)

end StatementsComplete

theorem statementsComplete (hl : source.last.isEnd) (frames : Nat) :
    StatementsComplete source frames := by
  induction frames with
  | zero => constructor <;> intros <;> exact .exhausted _ _ _
  | succ frames ih =>
    exact ⟨ih.declaration_succ hl, ih.block_succ hl, ih.function_succ hl, ih.statement_succ hl,
      ih.ifThen_succ hl, ih.ifElse_succ hl, ih.whileDo_succ hl, ih.forLoop_succ hl⟩

end Parse

end Lox
