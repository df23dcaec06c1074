import Lox.Proofs.Grammar.Rules

/-!
What phrases look like from the left: the tokens that they begin with, the tokens that would go on
with them, and infix phrases and calls as a first operand with segments after it.
-/

set_option autoImplicit false

namespace Lox.Grammar

/-- The kinds that an expression begins with. -/
def openers : List Kind :=
  [.bang, .minus, .number, .string, .trueWord, .falseWord, .nilWord, .identifier, .leftParen]

theorem Phrase.head {rank : Rank} {ts : List Token} {n : Node} :
    Phrase rank ts n → ∃ t us, ts = t :: us ∧ t.kind ∈ openers
  | .tighter _ h => h.head
  | .assign hn _ _ => ⟨_, _, rfl, by simp [hn, openers]⟩
  | .joined _ _ hl _ => by
    obtain ⟨t, us, rfl, ht⟩ := hl.head
    exact ⟨t, _, rfl, ht⟩
  | .unary ho _ => ⟨_, _, rfl, by rcases ho with ho | ho <;> simp [ho, openers]⟩
  | .bareCall h _ _ => by
    obtain ⟨t, us, rfl, ht⟩ := h.head
    exact ⟨t, _, rfl, ht⟩
  | .call h _ _ _ _ => by
    obtain ⟨t, us, rfl, ht⟩ := h.head
    exact ⟨t, _, rfl, ht⟩
  | .literal ht => by
    have hs : ∀ k ∈ literals, k ∈ openers := by decide
    exact ⟨_, _, rfl, hs _ ht⟩
  | .«variable» ht => ⟨_, _, rfl, by simp [ht, openers]⟩
  | .grouping ho _ _ => ⟨_, _, rfl, by simp [ho, openers]⟩

theorem Phrase.primaryHead {ts : List Token} {n : Node} (h : Phrase .primary ts n) :
    ∃ t us, ts = t :: us ∧ t.kind ∈ openers.drop 2 := by
  cases h with
  | tighter hr => simp [Rank.tighter?] at hr
  | joined hr ho => simp [Rank.operators] at ho
  | literal ht =>
    have hs : ∀ k ∈ literals, k ∈ openers.drop 2 := by decide
    exact ⟨_, _, rfl, hs _ ht⟩
  | «variable» ht => exact ⟨_, _, rfl, by simp [ht, openers]⟩
  | grouping ho => exact ⟨_, _, rfl, by simp [ho, openers]⟩

/-- The kinds that a statement begins with. -/
def statementOpeners : List Kind :=
  openers ++ [.printWord, .returnWord, .leftBrace, .ifWord, .whileWord, .forWord]

theorem ExpressionStatement.head {ts : List Token} {n : Node} (h : ExpressionStatement ts n) :
    ∃ t us, ts = t :: us ∧ t.kind ∈ openers := by
  obtain ⟨h, _⟩ := h
  obtain ⟨t, us, rfl, ht⟩ := h.head
  exact ⟨t, _, rfl, ht⟩

theorem Statement.head {fn dangling : Bool} {ts : List Token} {n : Node}
    (h : Statement fn dangling ts n) : ∃ t us, ts = t :: us ∧ t.kind ∈ statementOpeners := by
  cases h with
  | expression h =>
    obtain ⟨t, us, rfl, ht⟩ := h.head
    exact ⟨t, us, rfl, List.mem_append_left _ ht⟩
  | print hk => exact ⟨_, _, rfl, by simp [hk, statementOpeners]⟩
  | bareReturn hk => exact ⟨_, _, rfl, by simp [hk, statementOpeners]⟩
  | «return» hk => exact ⟨_, _, rfl, by simp [hk, statementOpeners]⟩
  | block ho => exact ⟨_, _, rfl, by simp [ho, statementOpeners]⟩
  | ifThen hk => exact ⟨_, _, rfl, by simp [hk, statementOpeners]⟩
  | ifElse hk => exact ⟨_, _, rfl, by simp [hk, statementOpeners]⟩
  | whileDo hk => exact ⟨_, _, rfl, by simp [hk, statementOpeners]⟩
  | forLoop hk => exact ⟨_, _, rfl, by simp [hk, statementOpeners]⟩

theorem Declaration.head {fn : Bool} {ts : List Token} {n : Node} (h : Declaration fn ts n) :
    ∃ t us, ts = t :: us ∧ t.kind ∈ .varWord :: .funWord :: statementOpeners := by
  cases h with
  | var hk => exact ⟨_, _, rfl, by simp [hk]⟩
  | function hk => exact ⟨_, _, rfl, by simp [hk]⟩
  | statement h =>
    obtain ⟨t, us, rfl, ht⟩ := h.head
    exact ⟨t, us, rfl, by simp [ht]⟩

/-- A tree that grows from one node to another over a row of segments. -/
inductive Chain (segment : Node → List Token → Node → Prop) : Node → List Token → Node → Prop where
  | nil {n : Node} : Chain segment n [] n
  | cons {l m n : Node} {us vs : List Token} (h : segment l us m) (hs : Chain segment m vs n) :
      Chain segment l (us ++ vs) n

theorem Chain.snoc {segment : Node → List Token → Node → Prop} {l m n : Node} {us vs : List Token}
    (h : Chain segment l us m) (hs : segment m vs n) : Chain segment l (us ++ vs) n := by
  induction h with
  | nil => simpa using Chain.cons hs .nil
  | cons h _ ih =>
    rw [List.append_assoc]
    exact .cons h (ih hs)

/-- An infix operator and its right operand. -/
inductive Segment (rank next : Rank) : Node → List Token → Node → Prop where
  | mk {l r : Node} {op : Token} {us : List Token} (ho : op.kind ∈ rank.operators)
      (h : Phrase next us r) : Segment rank next l (op :: us) (rank.join l op r)

/-- What is between the parentheses of a call, and the closing one. -/
inductive CallEnd (callee : Node) : List Token → Node → Prop where
  | bare {closing : Token} (hc : closing.kind = .rightParen) :
      CallEnd callee [closing] (.call callee (.token closing) [])
  | full {us : List Token} {ns : List Node} {closing : Token} (ha : Arguments us ns)
      (hs : ns.length ≤ 255) (hc : closing.kind = .rightParen) :
      CallEnd callee (us ++ [closing]) (.call callee (.token closing) ns)

/-- The parentheses of a call and what is between them. -/
inductive CallSegment : Node → List Token → Node → Prop where
  | mk {callee n : Node} {us : List Token} {opening : Token} (ho : opening.kind = .leftParen)
      (h : CallEnd callee us n) : CallSegment callee (opening :: us) n

theorem Phrase.spine {rank next : Rank} {ts : List Token} {n : Node}
    (hr : rank.tighter? = some next) (hi : rank.operators ≠ []) : Phrase rank ts n →
    ∃ us vs first, ts = us ++ vs ∧ Phrase next us first ∧ Chain (Segment rank next) first vs n
  | .tighter hr' h => by
    obtain rfl : next = _ := Option.some.inj (hr.symm.trans hr')
    exact ⟨ts, [], n, by simp, h, .nil⟩
  | .joined hr' ho hl hu => by
    obtain rfl : next = _ := Option.some.inj (hr.symm.trans hr')
    obtain ⟨us, vs, first, rfl, hf, hc⟩ := hl.spine hr hi
    exact ⟨us, _, first, by rw [List.append_assoc], hf, hc.snoc (.mk ho hu)⟩
  | .assign .. | .unary .. | .bareCall .. | .call .. | .literal _ | .«variable» _ | .grouping .. =>
    absurd rfl hi

theorem Phrase.ofChain {rank next : Rank} (hr : rank.tighter? = some next) {us vs : List Token}
    {l n : Node} (hl : Phrase rank us l) (h : Chain (Segment rank next) l vs n) :
    Phrase rank (us ++ vs) n := by
  induction h generalizing us with
  | nil => simpa using hl
  | cons h _ ih =>
    obtain ⟨ho, hu⟩ := h
    rw [← List.append_assoc]
    exact ih (.joined hr ho hl hu)

/-- An infix phrase is an operand of the next rank with segments after it. -/
theorem phrase_infix_iff {rank next : Rank} (hr : rank.tighter? = some next)
    (hi : rank.operators ≠ []) {ts : List Token} {n : Node} :
    Phrase rank ts n ↔ ∃ us vs first, ts = us ++ vs ∧ Phrase next us first ∧
      Chain (Segment rank next) first vs n := by
  refine ⟨Phrase.spine hr hi, ?_⟩
  rintro ⟨us, vs, first, rfl, hf, hc⟩
  exact .ofChain hr (.tighter hr hf) hc

theorem Phrase.callSpine {ts : List Token} {n : Node} : Phrase .call ts n →
    ∃ us vs first, ts = us ++ vs ∧ Phrase .primary us first ∧ Chain CallSegment first vs n
  | .tighter hr h => by
    cases hr
    exact ⟨ts, [], n, by simp, h, .nil⟩
  | .joined _ ho _ _ => by simp [Rank.operators] at ho
  | .bareCall h ho hc => by
    obtain ⟨us, vs, first, rfl, hf, hs⟩ := h.callSpine
    exact ⟨us, _, first, by rw [List.append_assoc], hf, hs.snoc (.mk ho (.bare hc))⟩
  | .call h ho ha hl hc => by
    obtain ⟨us, vs, first, rfl, hf, hs⟩ := h.callSpine
    exact ⟨us, _, first, by simp, hf, hs.snoc (.mk ho (.full ha hl hc))⟩

theorem Phrase.callHead {ts : List Token} {n : Node} (h : Phrase .call ts n) :
    ∃ t us, ts = t :: us ∧ t.kind ∈ openers.drop 2 := by
  obtain ⟨us, vs, first, rfl, hf, _⟩ := h.callSpine
  obtain ⟨t, us, rfl, ht⟩ := hf.primaryHead
  exact ⟨t, _, rfl, ht⟩

theorem Phrase.ofPrimary {ts : List Token} {n : Node} (h : Phrase .primary ts n) (rank : Rank) :
    Phrase rank ts n := by
  have hcall : Phrase .call ts n := .tighter rfl h
  have hunary : Phrase .unary ts n := .tighter rfl hcall
  have hfactor : Phrase .factor ts n := .tighter rfl hunary
  have hterm : Phrase .term ts n := .tighter rfl hfactor
  have hcomparison : Phrase .comparison ts n := .tighter rfl hterm
  have hequality : Phrase .equality ts n := .tighter rfl hcomparison
  have hand : Phrase .and ts n := .tighter rfl hequality
  have hor : Phrase .or ts n := .tighter rfl hand
  cases rank with
  | assignment => exact .tighter rfl hor
  | _ => assumption

theorem phrase_call_iff {ts : List Token} {n : Node} :
    Phrase .call ts n ↔ ∃ us vs first, ts = us ++ vs ∧ Phrase .primary us first ∧
      Chain CallSegment first vs n := by
  refine ⟨Phrase.callSpine, ?_⟩
  rintro ⟨us, vs, first, rfl, hf, hc⟩
  have hl : Phrase .call us first := .tighter rfl hf
  clear hf
  induction hc generalizing us with
  | nil => simpa using hl
  | cons h _ ih =>
    rw [← List.append_assoc]
    apply ih
    obtain ⟨ho, h⟩ := h
    cases h with
    | bare hc => exact .bareCall hl ho hc
    | full ha hs hc =>
      have hn := Phrase.call hl ho ha hs hc
      rwa [List.append_assoc] at hn

/-- One item or more with commas between them. -/
inductive Separated (item : List Token → Node → Prop) : List Token → List Node → Prop where
  | one {ts : List Token} {n : Node} (h : item ts n) : Separated item ts [n]
  | more {ts us : List Token} {n : Node} {ns : List Node} {comma : Token} (h : item ts n)
      (hc : comma.kind = .comma) (hs : Separated item us ns) :
      Separated item (ts ++ comma :: us) (n :: ns)

theorem Arguments.separated {ts : List Token} {ns : List Node} : Arguments ts ns →
    Separated Expression ts ns
  | .one h => .one h
  | .more h hc hs => .more h hc hs.separated

theorem Arguments.head {ts : List Token} {ns : List Node} : Arguments ts ns →
    ∃ t us, ts = t :: us ∧ t.kind ∈ openers
  | .one h => h.head
  | .more h _ _ => by
    obtain ⟨t, us, rfl, ht⟩ := h.head
    exact ⟨t, _, rfl, ht⟩

theorem Separated.arguments {ts : List Token} {ns : List Node} (h : Separated Expression ts ns) :
    Arguments ts ns := by
  induction h with
  | one h => exact .one h
  | more h hc _ ih => exact .more h hc ih

/-- A token that is a name. -/
def Named (ts : List Token) (n : Node) : Prop :=
  ∃ t, ts = [t] ∧ t.kind = .identifier ∧ n = .token t

theorem Separated.name_head {ts : List Token} {ns : List Node} (h : Separated Named ts ns) :
    ∃ t us, ts = t :: us ∧ t.kind ∈ [Kind.identifier] := by
  cases h with
  | one h =>
    obtain ⟨t, rfl, ht, -⟩ := h
    exact ⟨t, [], rfl, by simp [ht]⟩
  | more h =>
    obtain ⟨t, rfl, ht, -⟩ := h
    exact ⟨t, _, rfl, by simp [ht]⟩

theorem names_iff {ts : List Token} {ns : List Node} : Names ts ns ↔ Separated Named ts ns := by
  constructor
  · intro h
    induction h with
    | one ht => exact .one ⟨_, rfl, ht, rfl⟩
    | more ht hc _ ih => exact .more ⟨_, rfl, ht, rfl⟩ hc ih
  · intro h
    induction h with
    | one h =>
      obtain ⟨t, rfl, ht, rfl⟩ := h
      exact .one ht
    | more h hc _ ih =>
      obtain ⟨t, rfl, ht, rfl⟩ := h
      exact .more ht hc ih

/-- The kinds that go on with an expression, the one that does so at the loosest rank first. -/
def followers : List Kind :=
  [.equal, .orWord, .andWord, .bangEqual, .equalEqual, .greater, .greaterEqual, .less, .lessEqual,
   .minus, .plus, .slash, .star, .leftParen]

/-- The kinds that would go on with a phrase of a rank. -/
def Rank.followers : Rank → List Kind
  | assignment => Grammar.followers
  | or => Grammar.followers.drop 1
  | and => Grammar.followers.drop 2
  | equality => Grammar.followers.drop 3
  | comparison => Grammar.followers.drop 5
  | term => Grammar.followers.drop 9
  | factor => Grammar.followers.drop 11
  | unary => [.leftParen]
  | call => [.leftParen]
  | primary => []

/-- None of the kinds comes first in what is left. -/
def Stops (ks : List Kind) (rest : List Token) : Prop := ∀ t ∈ rest.head?, t.kind ∉ ks

theorem Stops.nil {ks : List Kind} : Stops ks [] := by simp [Stops]

theorem Stops.cons {ks : List Kind} {t : Token} {rest : List Token} (h : t.kind ∉ ks) :
    Stops ks (t :: rest) := by
  rintro u hu
  obtain rfl : t = u := by simpa using hu
  exact h

theorem Stops.mono {ks ls : List Kind} {rest : List Token} (h : Stops ks rest)
    (hs : ∀ k ∈ ls, k ∈ ks) : Stops ls rest := fun t ht hk => h t ht (hs _ hk)

theorem Stops.of_head {ks ls : List Kind} {ts rest : List Token}
    (h : ∃ t us, ts = t :: us ∧ t.kind ∈ ls) (hs : ∀ k ∈ ls, k ∉ ks) : Stops ks (ts ++ rest) := by
  obtain ⟨t, us, rfl, ht⟩ := h
  exact .cons (hs _ ht)

theorem Rank.operators_followers (rank : Rank) : ∀ k ∈ rank.operators, k ∈ rank.followers := by
  cases rank <;> decide

theorem Stops.tighter {rank next : Rank} {rest : List Token} (hr : rank.tighter? = some next)
    (h : Stops rank.followers rest) : Stops next.followers rest := by
  refine h.mono ?_
  cases rank <;> cases hr <;> decide

theorem Declarations.stops {fn : Bool} {ks : List Kind} {ts rest : List Token} {ns : List Node}
    (h : Declarations fn ts ns) (hs : ∀ k ∈ .varWord :: .funWord :: statementOpeners, k ∉ ks)
    (hr : Stops ks rest) : Stops ks (ts ++ rest) := by
  cases h with
  | nil => exact hr
  | cons h =>
    rw [List.append_assoc]
    exact .of_head h.head hs

/-- After an operand come the next operator or what follows the whole phrase. -/
theorem Stops.afterOperand {rank next : Rank} {l n : Node} {vs rest : List Token}
    (hr : rank.tighter? = some next) (hc : Chain (Segment rank next) l vs n)
    (h : Stops rank.followers rest) : Stops next.followers (vs ++ rest) := by
  cases hc with
  | nil => exact h.tighter hr
  | cons hs _ =>
    obtain ⟨ho, _⟩ := hs
    refine .cons fun hk => ?_
    have hd : ∀ k ∈ rank.operators, k ∉ next.followers := by cases rank <;> cases hr <;> decide
    exact hd _ ho hk

end Lox.Grammar
