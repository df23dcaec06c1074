import Mathlib.Computability.Language
import Lox.Proofs.Grammar.Shape

/-!
The grammar of sentences, without trees: one production for each rule of the parser. It is looser than
that of programs in what the parser reports in passing and parses on: any operand may be assigned to, a
return may stand anywhere, and there may be any number of parameters and arguments. An `else` may belong
to any `if` that can have it.

The words of a symbol form a language. What is proved of them is said with all that may come after them,
so that the equation of a production names its parts in the order in which they are met.
-/

set_option autoImplicit false

namespace Lox.Grammar

open scoped Computability

/-- One symbol for each rule of the parser. The keyword that a rule comes after is not part of it, nor is
the parenthesis before the arguments of a call or the brace before a block. -/
inductive Symbol where
  | program | declaration | variable | function | parameters | block | statement
  | expressionStatement | printStatement | returnStatement | ifStatement | whileStatement
  | forStatement | initializer | callEnd
  | phrase (rank : Rank)

/-- What a production may ask for. -/
inductive Form where
  | token (ks : List Kind)
  | symbol (s : Symbol)
  | sequence (a b : Form)
  | choice (a b : Form)
  | optional (a : Form)
  | many (a : Form)

namespace Form

instance : Mul Form := ⟨sequence⟩

instance : Add Form := ⟨choice⟩

def word (k : Kind) : Form := token [k]

def phrase (rank : Rank) : Form := symbol (.phrase rank)

def expression : Form := phrase .assignment

/-- One item or more with commas between them. -/
def separated (item : Form) : Form := item * many (word .comma * item)

/-- Operands with operators between them. -/
def joined (operators : List Kind) (operand : Rank) : Form :=
  phrase operand * many (token operators * phrase operand)

/-- A condition or the like after its keyword. -/
def parenthesized (a : Form) : Form := word .leftParen * a * word .rightParen

end Form

open Form in
def Symbol.production : Symbol → Form
  | program => many (symbol declaration) * word .eof
  | declaration =>
    symbol statement + word .funWord * symbol function + word .varWord * symbol «variable»
  | «variable» => word .identifier * optional (word .equal * expression) * word .semicolon
  | function => word .identifier * parenthesized (symbol parameters) * word .leftBrace * symbol block
  | parameters => optional (separated (word .identifier))
  | block => many (symbol declaration) * word .rightBrace
  | statement =>
    symbol expressionStatement + word .printWord * symbol printStatement +
    word .leftBrace * symbol block + word .ifWord * symbol ifStatement +
    word .whileWord * symbol whileStatement + word .forWord * symbol forStatement +
    word .returnWord * symbol returnStatement
  | expressionStatement => expression * word .semicolon
  | printStatement => expression * word .semicolon
  | returnStatement => optional expression * word .semicolon
  | ifStatement =>
    parenthesized expression * symbol statement * optional (word .elseWord * symbol statement)
  | whileStatement => parenthesized expression * symbol statement
  | forStatement =>
    parenthesized (symbol initializer * optional expression * word .semicolon * optional expression) *
      symbol statement
  | initializer =>
    symbol expressionStatement + word .varWord * symbol «variable» + word .semicolon
  | callEnd => optional (separated expression) * word .rightParen
  | phrase .assignment => Form.phrase .or * optional (word .equal * expression)
  | phrase .or => joined [.orWord] .and
  | phrase .and => joined [.andWord] .equality
  | phrase .equality => joined [.bangEqual, .equalEqual] .comparison
  | phrase .comparison => joined [.greater, .greaterEqual, .less, .lessEqual] .term
  | phrase .term => joined [.minus, .plus] .factor
  | phrase .factor => joined [.slash, .star] .unary
  | phrase .unary => Form.phrase .call + token [.bang, .minus] * Form.phrase .unary
  | phrase .call => Form.phrase .primary * many (word .leftParen * symbol callEnd)
  | phrase .primary => token literals + word .identifier + parenthesized expression

/-- The token lists of a form. -/
inductive Derives : Form → List Token → Prop where
  | token {ks : List Kind} {t : Token} (h : t.kind ∈ ks) : Derives (.token ks) [t]
  | symbol {s : Symbol} {ts : List Token} (h : Derives s.production ts) : Derives (.symbol s) ts
  | sequence {a b : Form} {ts us : List Token} (ha : Derives a ts) (hb : Derives b us) :
      Derives (.sequence a b) (ts ++ us)
  | left {a b : Form} {ts : List Token} (h : Derives a ts) : Derives (.choice a b) ts
  | right {a b : Form} {ts : List Token} (h : Derives b ts) : Derives (.choice a b) ts
  | none {a : Form} : Derives (.optional a) []
  | some {a : Form} {ts : List Token} (h : Derives a ts) : Derives (.optional a) ts
  | nil {a : Form} : Derives (.many a) []
  | cons {a : Form} {ts us : List Token} (h : Derives a ts) (hs : Derives (.many a) us) :
      Derives (.many a) (ts ++ us)

/-- A whole token list of the grammar, with its end mark. -/
def Sentence (ts : List Token) : Prop := Derives (.symbol .program) ts

abbrev Words := Language Token

namespace Words

/-- Single tokens of some kinds. -/
def ofKinds (ks : List Kind) : Words := {ts | ∃ t, ts = [t] ∧ t.kind ∈ ks}

theorem mem_ofKinds_mul {ks : List Kind} {L : Words} {ts : List Token} :
    ts ∈ ofKinds ks * L ↔ ∃ t us, ts = t :: us ∧ t.kind ∈ ks ∧ us ∈ L := by
  rw [Language.mem_mul]
  constructor
  · rintro ⟨_, ⟨t, rfl, ht⟩, us, hu, rfl⟩
    exact ⟨t, us, rfl, ht, hu⟩
  · rintro ⟨t, us, rfl, ht, hu⟩
    exact ⟨[t], ⟨t, rfl, ht⟩, us, hu, rfl⟩

theorem cons_mem_ofKinds_mul {ks : List Kind} {L : Words} {t : Token} {us : List Token} :
    t :: us ∈ ofKinds ks * L ↔ t.kind ∈ ks ∧ us ∈ L := by
  rw [mem_ofKinds_mul]
  constructor
  · rintro ⟨_, _, ⟨⟩, ht, hu⟩
    exact ⟨ht, hu⟩
  · exact fun h => ⟨t, us, rfl, h⟩

theorem cons_mem_mark {k : Kind} {L : Words} {t : Token} {us : List Token} :
    t :: us ∈ ofKinds [k] * L ↔ t.kind = k ∧ us ∈ L := by
  rw [cons_mem_ofKinds_mul, List.mem_singleton]

theorem kstar_mul (L K : Words) : L∗ * K = K + L * (L∗ * K) := by
  conv_lhs => rw [← Language.one_add_self_mul_kstar_eq_kstar, add_mul, one_mul, mul_assoc]

end Words

/-- The same as a language. -/
def Form.words (a : Form) : Words := {ts | Derives a ts}

def Symbol.words (s : Symbol) : Words := s.production.words

namespace Form

theorem mem_words {a : Form} {ts : List Token} : ts ∈ a.words ↔ Derives a ts := Iff.rfl

@[simp] theorem words_token (ks : List Kind) : (token ks).words = Words.ofKinds ks := by
  ext ts
  constructor
  · intro h
    cases mem_words.1 h with
    | token ht => exact ⟨_, rfl, ht⟩
  · rintro ⟨t, rfl, h⟩
    exact .token h

@[simp] theorem words_word (k : Kind) : (word k).words = Words.ofKinds [k] := words_token [k]

@[simp] theorem words_symbol (s : Symbol) : (symbol s).words = s.words := by
  ext ts
  refine ⟨fun h => ?_, .symbol⟩
  cases mem_words.1 h with
  | symbol h => exact h

@[simp] theorem words_mul (a b : Form) : (a * b).words = a.words * b.words := by
  ext ts
  rw [Language.mem_mul]
  constructor
  · intro h
    cases mem_words.1 h with
    | sequence ha hb => exact ⟨_, ha, _, hb, rfl⟩
  · rintro ⟨us, ha, vs, hb, rfl⟩
    exact .sequence ha hb

@[simp] theorem words_add (a b : Form) : (a + b).words = a.words + b.words := by
  ext ts
  rw [Language.mem_add]
  constructor
  · intro h
    cases mem_words.1 h with
    | left h => exact .inl h
    | right h => exact .inr h
  · rintro (h | h)
    · exact .left h
    · exact .right h

@[simp] theorem words_optional (a : Form) : (optional a).words = 1 + a.words := by
  ext ts
  rw [Language.mem_add, Language.mem_one]
  constructor
  · intro h
    cases mem_words.1 h with
    | none => exact .inl rfl
    | some h => exact .inr h
  · rintro (rfl | h)
    · exact .none
    · exact .some h

@[simp] theorem words_many (a : Form) : (many a).words = a.words∗ := by
  ext ts
  rw [Language.mem_kstar]
  constructor
  · intro h
    generalize hm : many a = m at h
    induction h with
    | nil => exact ⟨[], rfl, by simp⟩
    | cons h hs ih ihs =>
      obtain rfl := Form.many.inj hm
      obtain ⟨tss, rfl, hall⟩ := ihs rfl
      exact ⟨_ :: tss, rfl, List.forall_mem_cons.2 ⟨h, hall⟩⟩
    | _ => cases hm
  · rintro ⟨tss, rfl, hall⟩
    induction tss with
    | nil => exact .nil
    | cons ts tss ih =>
      obtain ⟨h, hs⟩ := List.forall_mem_cons.1 hall
      exact .cons h (ih hs)

end Form

namespace Form

@[simp] theorem words_phrase (rank : Rank) : (phrase rank).words = (Symbol.phrase rank).words :=
  words_symbol _

@[simp] theorem words_expression : expression.words = (Symbol.phrase .assignment).words :=
  words_symbol _

@[simp] theorem words_separated (a : Form) :
    (separated a).words = a.words * (Words.ofKinds [.comma] * a.words)∗ := by
  simp [separated]

@[simp] theorem words_joined (ks : List Kind) (rank : Rank) : (joined ks rank).words =
    (Symbol.phrase rank).words * (Words.ofKinds ks * (Symbol.phrase rank).words)∗ := by
  simp [joined]

@[simp] theorem words_parenthesized (a : Form) : (parenthesized a).words =
    Words.ofKinds [.leftParen] * a.words * Words.ofKinds [.rightParen] := by
  simp [parenthesized]

end Form

theorem sentence_iff {ts : List Token} : Sentence ts ↔ ts ∈ Symbol.program.words := by
  rw [← Form.words_symbol]
  exact Iff.rfl

/-!
Each production with what comes after it, in the order in which a parser meets its parts.
-/

namespace Symbol

open Words (ofKinds)

theorem program_words : program.words = declaration.words∗ * ofKinds [.eof] := by
  rw [words]
  simp [production]

variable (K : Words)

theorem declaration_mul : declaration.words * K = statement.words * K +
    ofKinds [.funWord] * (function.words * K) + ofKinds [.varWord] * («variable».words * K) := by
  rw [words]
  simp [production, add_mul, mul_assoc, -add_eq_sup]

theorem variable_mul : «variable».words * K =
    ofKinds [.identifier] * (ofKinds [.semicolon] * K +
      ofKinds [.equal] * ((phrase .assignment).words * (ofKinds [.semicolon] * K))) := by
  rw [words]
  simp [production, add_mul, mul_assoc, -add_eq_sup]

theorem function_mul : function.words * K =
    ofKinds [.identifier] * (ofKinds [.leftParen] * (parameters.words * (ofKinds [.rightParen] *
      (ofKinds [.leftBrace] * (block.words * K))))) := by
  rw [words]
  simp [production, mul_assoc]

theorem parameters_mul : parameters.words * K =
    K + ofKinds [.identifier] * ((ofKinds [.comma] * ofKinds [.identifier])∗ * K) := by
  rw [words]
  simp [production, add_mul, mul_assoc, -add_eq_sup]

theorem block_mul : block.words * K = declaration.words∗ * (ofKinds [.rightBrace] * K) := by
  rw [words]
  simp [production, mul_assoc]

theorem statement_mul : statement.words * K = expressionStatement.words * K +
    ofKinds [.printWord] * (printStatement.words * K) + ofKinds [.leftBrace] * (block.words * K) +
    ofKinds [.ifWord] * (ifStatement.words * K) + ofKinds [.whileWord] * (whileStatement.words * K) +
    ofKinds [.forWord] * (forStatement.words * K) +
    ofKinds [.returnWord] * (returnStatement.words * K) := by
  rw [words]
  simp [production, add_mul, mul_assoc, -add_eq_sup]

variable {K} in
theorem cons_mem_statement {t : Token} {w : List Token} : t :: w ∈ statement.words * K ↔
    t :: w ∈ expressionStatement.words * K ∨
    t.kind = .printWord ∧ w ∈ printStatement.words * K ∨
    t.kind = .leftBrace ∧ w ∈ block.words * K ∨
    t.kind = .ifWord ∧ w ∈ ifStatement.words * K ∨
    t.kind = .whileWord ∧ w ∈ whileStatement.words * K ∨
    t.kind = .forWord ∧ w ∈ forStatement.words * K ∨
    t.kind = .returnWord ∧ w ∈ returnStatement.words * K := by
  simp only [statement_mul, Language.mem_add, Words.cons_mem_mark, or_assoc]

theorem expressionStatement_mul : expressionStatement.words * K =
    (phrase .assignment).words * (ofKinds [.semicolon] * K) := by
  rw [words]
  simp [production, mul_assoc]

theorem printStatement_mul : printStatement.words * K =
    (phrase .assignment).words * (ofKinds [.semicolon] * K) := by
  rw [words]
  simp [production, mul_assoc]

theorem returnStatement_mul : returnStatement.words * K =
    ofKinds [.semicolon] * K + (phrase .assignment).words * (ofKinds [.semicolon] * K) := by
  rw [words]
  simp [production, add_mul, mul_assoc, -add_eq_sup]

theorem ifStatement_mul : ifStatement.words * K =
    ofKinds [.leftParen] * ((phrase .assignment).words * (ofKinds [.rightParen] *
      (statement.words * (K + ofKinds [.elseWord] * (statement.words * K))))) := by
  rw [words]
  simp [production, add_mul, mul_assoc, -add_eq_sup]

theorem whileStatement_mul : whileStatement.words * K =
    ofKinds [.leftParen] * ((phrase .assignment).words * (ofKinds [.rightParen] *
      (statement.words * K))) := by
  rw [words]
  simp [production, mul_assoc]

theorem forStatement_mul : forStatement.words * K =
    ofKinds [.leftParen] * (initializer.words * ((1 + (phrase .assignment).words) *
      (ofKinds [.semicolon] * ((1 + (phrase .assignment).words) * (ofKinds [.rightParen] *
        (statement.words * K)))))) := by
  rw [words]
  simp [production, mul_assoc, -add_eq_sup]

theorem initializer_mul : initializer.words * K = expressionStatement.words * K +
    ofKinds [.varWord] * («variable».words * K) + ofKinds [.semicolon] * K := by
  rw [words]
  simp [production, add_mul, mul_assoc, -add_eq_sup]

theorem callEnd_mul : callEnd.words * K = ofKinds [.rightParen] * K + (phrase .assignment).words *
    ((ofKinds [.comma] * (phrase .assignment).words)∗ * (ofKinds [.rightParen] * K)) := by
  rw [words]
  simp [production, add_mul, mul_assoc, -add_eq_sup]

theorem assignment_mul : (phrase .assignment).words * K =
    (phrase .or).words * (K + ofKinds [.equal] * ((phrase .assignment).words * K)) := by
  conv_lhs => rw [words]
  simp [production, add_mul, mul_assoc, -add_eq_sup]

theorem infix_mul {rank next : Rank} (hr : rank.tighter? = some next) (hi : rank.operators ≠ []) :
    (phrase rank).words * K =
      (phrase next).words * ((ofKinds rank.operators * (phrase next).words)∗ * K) := by
  cases rank <;> first
    | exact absurd rfl hi
    | cases hr; conv_lhs => rw [words]
      simp [production, mul_assoc, Rank.operators]

theorem unary_mul : (phrase .unary).words * K =
    (phrase .call).words * K + ofKinds [.bang, .minus] * ((phrase .unary).words * K) := by
  conv_lhs => rw [words]
  simp [production, add_mul, mul_assoc, -add_eq_sup]

theorem call_mul : (phrase .call).words * K =
    (phrase .primary).words * ((ofKinds [.leftParen] * callEnd.words)∗ * K) := by
  conv_lhs => rw [words]
  simp [production, mul_assoc]

theorem primary_mul : (phrase .primary).words * K = ofKinds literals * K +
    ofKinds [.identifier] * K + ofKinds [.leftParen] *
      ((phrase .assignment).words * (ofKinds [.rightParen] * K)) := by
  rw [words]
  simp [production, add_mul, mul_assoc, -add_eq_sup]

variable {K} in
theorem cons_mem_primary {t : Token} {w : List Token} : t :: w ∈ (phrase .primary).words * K ↔
    t.kind ∈ literals ∧ w ∈ K ∨ t.kind = .identifier ∧ w ∈ K ∨
      t.kind = .leftParen ∧ w ∈ (phrase .assignment).words * (ofKinds [.rightParen] * K) := by
  simp only [primary_mul, Language.mem_add, Words.cons_mem_ofKinds_mul, List.mem_singleton, or_assoc]

end Symbol

end Lox.Grammar
