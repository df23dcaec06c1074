import Lox.Node.Basic

/-!
The grammar of programs: which token lists are phrases, and the tree of each. Every rule takes its
tokens in order and all of them.

    program     := declaration* EOF
    declaration := "var" variable | "fun" function | statement
    assignment  := IDENTIFIER "=" assignment | or
    or          := and ( "or" and )*                 and so on, one rank a line, down to factor
    unary       := ( "!" | "-" ) unary | call
    call        := primary ( "(" arguments? ")" )*

Infix operators associate to the left, assignment and unary operators to the right.
-/

set_option autoImplicit false

namespace Lox.Grammar

/-- The ranks of expressions, loosest first. -/
inductive Rank where
  | assignment | or | and | equality | comparison | term | factor | unary | call | primary
  deriving DecidableEq, Repr

namespace Rank

/-- The rank that a phrase may have instead, and that the operands of an infix operator have. -/
def tighter? : Rank → Option Rank
  | assignment => some or
  | or => some and
  | and => some equality
  | equality => some comparison
  | comparison => some term
  | term => some factor
  | factor => some unary
  | unary => some call
  | call => some primary
  | primary => none

def operators : Rank → List Kind
  | or => [.orWord]
  | and => [.andWord]
  | equality => [.bangEqual, .equalEqual]
  | comparison => [.greater, .greaterEqual, .less, .lessEqual]
  | term => [.minus, .plus]
  | factor => [.slash, .star]
  | _ => []

/-- The node of an infix operator. -/
def join : Rank → Node → Token → Node → Node
  | or, l, op, r => .logical l (.token op) r
  | and, l, op, r => .logical l (.token op) r
  | _, l, op, r => .binary l (.token op) r

end Rank

/-- The words and literals that are expressions by themselves. -/
def literals : List Kind := [.number, .string, .trueWord, .falseWord, .nilWord]

mutual

/-- The expressions of each rank. -/
inductive Phrase : Rank → List Token → Node → Prop where
  | tighter {rank next : Rank} {ts : List Token} {n : Node} (hr : rank.tighter? = some next)
      (h : Phrase next ts n) : Phrase rank ts n
  | assign {name equals : Token} {ts : List Token} {n : Node} (hn : name.kind = .identifier)
      (he : equals.kind = .equal) (h : Phrase .assignment ts n) :
      Phrase .assignment (name :: equals :: ts) (.assign (.token name) n)
  | joined {rank next : Rank} {ts us : List Token} {l r : Node} {op : Token}
      (hr : rank.tighter? = some next) (ho : op.kind ∈ rank.operators) (hl : Phrase rank ts l)
      (hu : Phrase next us r) : Phrase rank (ts ++ op :: us) (rank.join l op r)
  | unary {op : Token} {ts : List Token} {n : Node} (ho : op.kind = .bang ∨ op.kind = .minus)
      (h : Phrase .unary ts n) : Phrase .unary (op :: ts) (.unary (.token op) n)
  | bareCall {ts : List Token} {callee : Node} {opening closing : Token}
      (h : Phrase .call ts callee) (ho : opening.kind = .leftParen)
      (hc : closing.kind = .rightParen) :
      Phrase .call (ts ++ [opening, closing]) (.call callee (.token closing) [])
  | call {ts us : List Token} {callee : Node} {ns : List Node} {opening closing : Token}
      (h : Phrase .call ts callee) (ho : opening.kind = .leftParen) (ha : Arguments us ns)
      (hs : ns.length ≤ 255) (hc : closing.kind = .rightParen) :
      Phrase .call (ts ++ opening :: us ++ [closing]) (.call callee (.token closing) ns)
  | literal {t : Token} (ht : t.kind ∈ literals) : Phrase .primary [t] (.literal (.token t))
  | variable {t : Token} (ht : t.kind = .identifier) : Phrase .primary [t] (.variable (.token t))
  | grouping {opening closing : Token} {ts : List Token} {n : Node} (ho : opening.kind = .leftParen)
      (h : Phrase .assignment ts n) (hc : closing.kind = .rightParen) :
      Phrase .primary (opening :: ts ++ [closing]) (.grouping n)

/-- One expression or more with commas between them. -/
inductive Arguments : List Token → List Node → Prop where
  | one {ts : List Token} {n : Node} (h : Phrase .assignment ts n) : Arguments ts [n]
  | more {ts us : List Token} {n : Node} {ns : List Node} {comma : Token}
      (h : Phrase .assignment ts n) (hc : comma.kind = .comma) (hs : Arguments us ns) :
      Arguments (ts ++ comma :: us) (n :: ns)

end

abbrev Expression : List Token → Node → Prop := Phrase .assignment

/-- One name or more with commas between them. -/
inductive Names : List Token → List Node → Prop where
  | one {t : Token} (ht : t.kind = .identifier) : Names [t] [.token t]
  | more {t comma : Token} {us : List Token} {ns : List Node} (ht : t.kind = .identifier)
      (hc : comma.kind = .comma) (hs : Names us ns) : Names (t :: comma :: us) (.token t :: ns)

inductive Parameters : List Token → List Node → Prop where
  | none : Parameters [] []
  | some {ts : List Token} {ns : List Node} (h : Names ts ns) (hs : ns.length ≤ 255) :
      Parameters ts ns

/-- A variable after its keyword. -/
inductive Variable : List Token → Node → Prop where
  | bare {name semicolon : Token} (hn : name.kind = .identifier)
      (hs : semicolon.kind = .semicolon) :
      Variable [name, semicolon] (.var (.token name) .missing)
  | initialized {name equals semicolon : Token} {ts : List Token} {n : Node}
      (hn : name.kind = .identifier) (he : equals.kind = .equal) (h : Expression ts n)
      (hs : semicolon.kind = .semicolon) :
      Variable (name :: equals :: ts ++ [semicolon]) (.var (.token name) n)

inductive ExpressionStatement : List Token → Node → Prop where
  | mk {ts : List Token} {n : Node} {semicolon : Token} (h : Expression ts n)
      (hs : semicolon.kind = .semicolon) : ExpressionStatement (ts ++ [semicolon]) (.expression n)

/-- The first clause of a loop and the statements it stands for. -/
inductive Initializer : List Token → List Node → Prop where
  | none {semicolon : Token} (hs : semicolon.kind = .semicolon) : Initializer [semicolon] []
  | var {keyword : Token} {ts : List Token} {n : Node} (hk : keyword.kind = .varWord)
      (h : Variable ts n) : Initializer (keyword :: ts) [n]
  | expression {ts : List Token} {n : Node} (h : ExpressionStatement ts n) : Initializer ts [n]

/-- The second clause of a loop with a keyword. A condition that is left out is true. -/
inductive Condition (keyword : Token) : List Token → Node → Prop where
  | none : Condition keyword []
      (.literal (.token ⟨.trueWord, .text "true", .null, keyword.line⟩))
  | some {ts : List Token} {n : Node} (h : Expression ts n) : Condition keyword ts n

/-- The third clause of a loop and the statements it adds to the body. -/
inductive Increment : List Token → List Node → Prop where
  | none : Increment [] []
  | some {ts : List Token} {n : Node} (h : Expression ts n) : Increment ts [.expression n]

mutual

/-- Statements, inside or outside all functions. A statement dangles when an `if` without an `else`
ends it; such a one is no branch before an `else`, which would belong to the nearer `if`. -/
inductive Statement : (inFunction dangling : Bool) → List Token → Node → Prop where
  | expression {fn : Bool} {ts : List Token} {n : Node} (h : ExpressionStatement ts n) :
      Statement fn false ts n
  | print {fn : Bool} {keyword semicolon : Token} {ts : List Token} {n : Node}
      (hk : keyword.kind = .printWord) (h : Expression ts n) (hs : semicolon.kind = .semicolon) :
      Statement fn false (keyword :: ts ++ [semicolon]) (.print n)
  | bareReturn {keyword semicolon : Token} (hk : keyword.kind = .returnWord)
      (hs : semicolon.kind = .semicolon) :
      Statement true false [keyword, semicolon] (.ret (.token keyword) .missing)
  | return {keyword semicolon : Token} {ts : List Token} {n : Node}
      (hk : keyword.kind = .returnWord) (h : Expression ts n) (hs : semicolon.kind = .semicolon) :
      Statement true false (keyword :: ts ++ [semicolon]) (.ret (.token keyword) n)
  | block {fn : Bool} {opening closing : Token} {ts : List Token} {ns : List Node}
      (ho : opening.kind = .leftBrace) (h : Declarations fn ts ns)
      (hc : closing.kind = .rightBrace) :
      Statement fn false (opening :: ts ++ [closing]) (.block ns)
  | ifThen {fn dangling : Bool} {keyword opening closing : Token} {ts us : List Token} {c n : Node}
      (hk : keyword.kind = .ifWord) (ho : opening.kind = .leftParen) (h : Expression ts c)
      (hc : closing.kind = .rightParen) (hn : Statement fn dangling us n) :
      Statement fn true (keyword :: opening :: ts ++ closing :: us) (.ifElse c n .missing)
  | ifElse {fn dangling : Bool} {keyword opening closing other : Token} {ts us vs : List Token}
      {c n e : Node} (hk : keyword.kind = .ifWord) (ho : opening.kind = .leftParen)
      (h : Expression ts c) (hc : closing.kind = .rightParen) (hn : Statement fn false us n)
      (he : other.kind = .elseWord) (hm : Statement fn dangling vs e) :
      Statement fn dangling (keyword :: opening :: ts ++ closing :: us ++ other :: vs)
        (.ifElse c n e)
  | whileDo {fn dangling : Bool} {keyword opening closing : Token} {ts us : List Token} {c n : Node}
      (hk : keyword.kind = .whileWord) (ho : opening.kind = .leftParen) (h : Expression ts c)
      (hc : closing.kind = .rightParen) (hn : Statement fn dangling us n) :
      Statement fn dangling (keyword :: opening :: ts ++ closing :: us) (.whileDo c n)
  | forLoop {fn dangling : Bool} {keyword opening semicolon closing : Token}
      {ts us vs ws : List Token} {before after : List Node} {c n : Node}
      (hk : keyword.kind = .forWord) (ho : opening.kind = .leftParen) (hi : Initializer ts before)
      (hd : Condition keyword us c) (hs : semicolon.kind = .semicolon) (ha : Increment vs after)
      (hc : closing.kind = .rightParen) (hn : Statement fn dangling ws n) :
      Statement fn dangling (keyword :: opening :: ts ++ us ++ semicolon :: vs ++ closing :: ws)
        (.block (before ++ [.whileDo c (.block (n :: after))]))

inductive Declaration : (inFunction : Bool) → List Token → Node → Prop where
  | var {fn : Bool} {keyword : Token} {ts : List Token} {n : Node} (hk : keyword.kind = .varWord)
      (h : Variable ts n) : Declaration fn (keyword :: ts) n
  | function {fn : Bool} {keyword name opening closing brace ending : Token} {ts us : List Token}
      {params body : List Node} (hk : keyword.kind = .funWord) (hn : name.kind = .identifier)
      (ho : opening.kind = .leftParen) (hp : Parameters ts params) (hc : closing.kind = .rightParen)
      (hb : brace.kind = .leftBrace) (h : Declarations true us body)
      (he : ending.kind = .rightBrace) :
      Declaration fn (keyword :: name :: opening :: ts ++ closing :: brace :: us ++ [ending])
        (.function (.token name) params (.block body))
  | statement {fn dangling : Bool} {ts : List Token} {n : Node} (h : Statement fn dangling ts n) :
      Declaration fn ts n

inductive Declarations : (inFunction : Bool) → List Token → List Node → Prop where
  | nil {fn : Bool} : Declarations fn [] []
  | cons {fn : Bool} {ts us : List Token} {n : Node} {ns : List Node} (h : Declaration fn ts n)
      (hs : Declarations fn us ns) : Declarations fn (ts ++ us) (n :: ns)

end

/-- A program and its statements: declarations outside all functions, then the end mark. -/
inductive Program : List Token → List Node → Prop where
  | mk {ts : List Token} {ns : List Node} {last : Token} (h : Declarations false ts ns)
      (he : last.kind = .eof) : Program (ts ++ [last]) ns

end Lox.Grammar
