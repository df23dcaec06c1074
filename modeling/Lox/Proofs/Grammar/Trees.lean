import Lox.Proofs.Grammar.Shape

/-!
The trees of programs: which node may stand at which place, for tokens of any sort. Main statement: the
tree of a program has nothing else, whatever sort its tokens are of.
-/

set_option autoImplicit false

namespace Lox

open Grammar

/-- A sort of tokens that has the word for a condition left out, on the line of each of its tokens. -/
structure TokenSort (T : Token → Prop) : Prop where
  whenLeftOut : ∀ {t}, T t → T ⟨.trueWord, .text "true", .null, t.line⟩

namespace Node

def logicalOperators : List Kind := [.orWord, .andWord]

def binaryOperators : List Kind :=
  [.bangEqual, .equalEqual, .greater, .greaterEqual, .less, .lessEqual, .minus, .plus, .slash, .star]

/-- The expressions over tokens of a sort. -/
inductive IsExpression (T : Token → Prop) : Node → Prop where
  | literal {t : Token} (ht : T t) (hk : t.kind ∈ literals) : IsExpression T (.literal (.token t))
  | grouping {n : Node} (h : IsExpression T n) : IsExpression T (.grouping n)
  | variable {t : Token} (ht : T t) (hk : t.kind = .identifier) :
      IsExpression T (.variable (.token t))
  | assign {t : Token} {n : Node} (ht : T t) (hk : t.kind = .identifier) (h : IsExpression T n) :
      IsExpression T (.assign (.token t) n)
  | unary {t : Token} {n : Node} (ht : T t) (hk : t.kind = .bang ∨ t.kind = .minus)
      (h : IsExpression T n) : IsExpression T (.unary (.token t) n)
  | logical {t : Token} {l r : Node} (ht : T t) (hk : t.kind ∈ logicalOperators)
      (hl : IsExpression T l) (hr : IsExpression T r) : IsExpression T (.logical l (.token t) r)
  | binary {t : Token} {l r : Node} (ht : T t) (hk : t.kind ∈ binaryOperators)
      (hl : IsExpression T l) (hr : IsExpression T r) : IsExpression T (.binary l (.token t) r)
  | call {t : Token} {callee : Node} {ns : List Node} (ht : T t) (hk : t.kind = .rightParen)
      (h : IsExpression T callee) (hs : ∀ n ∈ ns, IsExpression T n) :
      IsExpression T (.call callee (.token t) ns)

/-- The names over tokens of a sort. -/
inductive IsName (T : Token → Prop) : Node → Prop where
  | mk {t : Token} (ht : T t) (hk : t.kind = .identifier) : IsName T (.token t)

/-- The statements over tokens of a sort. -/
inductive IsStatement (T : Token → Prop) : Node → Prop where
  | expression {n : Node} (h : IsExpression T n) : IsStatement T (.expression n)
  | print {n : Node} (h : IsExpression T n) : IsStatement T (.print n)
  | bareVar {name : Node} (hn : IsName T name) : IsStatement T (.var name .missing)
  | var {name n : Node} (hn : IsName T name) (h : IsExpression T n) : IsStatement T (.var name n)
  | block {ns : List Node} (hs : ∀ n ∈ ns, IsStatement T n) : IsStatement T (.block ns)
  | ifThen {c n : Node} (hc : IsExpression T c) (h : IsStatement T n) :
      IsStatement T (.ifElse c n .missing)
  | ifElse {c n e : Node} (hc : IsExpression T c) (h : IsStatement T n) (he : IsStatement T e) :
      IsStatement T (.ifElse c n e)
  | whileDo {c n : Node} (hc : IsExpression T c) (h : IsStatement T n) :
      IsStatement T (.whileDo c n)
  | function {name : Node} {params body : List Node} (hn : IsName T name)
      (hp : ∀ p ∈ params, IsName T p) (hb : ∀ n ∈ body, IsStatement T n) :
      IsStatement T (.function name params (.block body))
  | bareReturn {t : Token} (ht : T t) (hk : t.kind = .returnWord) :
      IsStatement T (.ret (.token t) .missing)
  | return {t : Token} {n : Node} (ht : T t) (hk : t.kind = .returnWord) (h : IsExpression T n) :
      IsStatement T (.ret (.token t) n)

end Node

/-- A program is well formed over a sort of tokens if all its statements are. -/
def Program.WellFormed (T : Token → Prop) (p : Program) : Prop := ∀ n ∈ p, n.IsStatement T

namespace Grammar

open Node

variable {T : Token → Prop}

theorem Rank.isExpression_join {rank : Rank} {l r : Node} {op : Token} (ht : T op)
    (ho : op.kind ∈ rank.operators) (hl : IsExpression T l) (hr : IsExpression T r) :
    IsExpression T (rank.join l op r) := by
  have hlogical : ∀ k ∈ or.operators ++ and.operators, k ∈ logicalOperators := by decide
  have hbinary : ∀ k ∈ equality.operators ++ comparison.operators ++ term.operators ++
      factor.operators, k ∈ binaryOperators := by decide
  cases rank with
  | or | and => exact .logical ht (hlogical _ (by simp [ho])) hl hr
  | equality | comparison | term | factor => exact .binary ht (hbinary _ (by simp [ho])) hl hr
  | _ => simp [operators] at ho

mutual

theorem Phrase.isExpression {rank : Rank} {ts : List Token} {n : Node} (hT : ∀ t ∈ ts, T t) :
    Phrase rank ts n → IsExpression T n
  | .tighter _ h => h.isExpression hT
  | .assign hn _ h => .assign (hT _ (by simp)) hn (h.isExpression fun t ht => hT t (by simp [ht]))
  | .joined _ ho hl hu => Rank.isExpression_join (hT _ (by simp)) ho
      (hl.isExpression fun t ht => hT t (by simp [ht]))
      (hu.isExpression fun t ht => hT t (by simp [ht]))
  | .unary ho h => .unary (hT _ (by simp)) ho (h.isExpression fun t ht => hT t (by simp [ht]))
  | .bareCall h _ hc => .call (hT _ (by simp)) hc (h.isExpression fun t ht => hT t (by simp [ht]))
      (by simp)
  | .call h _ ha _ hc => .call (hT _ (by simp)) hc
      (h.isExpression fun t ht => hT t (by simp [ht]))
      (ha.isExpression fun t ht => hT t (by simp [ht]))
  | .literal ht => .literal (hT _ (by simp)) ht
  | .«variable» ht => .variable (hT _ (by simp)) ht
  | .grouping _ h _ => .grouping (h.isExpression fun t ht => hT t (by simp [ht]))

theorem Arguments.isExpression {ts : List Token} {ns : List Node} (hT : ∀ t ∈ ts, T t) :
    Arguments ts ns → ∀ n ∈ ns, IsExpression T n
  | .one h => by
    have hn := h.isExpression hT
    simpa using hn
  | .more h _ hs => by
    have hn := h.isExpression fun t ht => hT t (by simp [ht])
    have hns := hs.isExpression fun t ht => hT t (by simp [ht])
    simpa using ⟨hn, hns⟩

end

theorem Names.isName {ts : List Token} {ns : List Node} (hT : ∀ t ∈ ts, T t) (h : Names ts ns) :
    ∀ n ∈ ns, IsName T n := by
  induction h with
  | one ht =>
    have hn := IsName.mk (hT _ (by simp)) ht
    simpa using hn
  | more ht _ _ ih =>
    have hn := IsName.mk (hT _ (by simp)) ht
    have hns := ih fun t ht => hT t (by simp [ht])
    simpa using ⟨hn, hns⟩

theorem Parameters.isName {ts : List Token} {ns : List Node} (hT : ∀ t ∈ ts, T t)
    (h : Parameters ts ns) : ∀ n ∈ ns, IsName T n := by
  cases h with
  | none => simp
  | some h => exact h.isName hT

theorem Variable.isStatement {ts : List Token} {n : Node} (hT : ∀ t ∈ ts, T t)
    (h : Variable ts n) : IsStatement T n := by
  cases h with
  | bare hn => exact .bareVar (.mk (hT _ (by simp)) hn)
  | initialized hn _ h =>
    exact .var (.mk (hT _ (by simp)) hn) (h.isExpression fun t ht => hT t (by simp [ht]))

theorem ExpressionStatement.isStatement {ts : List Token} {n : Node} (hT : ∀ t ∈ ts, T t)
    (h : ExpressionStatement ts n) : IsStatement T n := by
  obtain ⟨h, _⟩ := h
  exact .expression (h.isExpression fun t ht => hT t (by simp [ht]))

theorem Initializer.isStatement {ts : List Token} {ns : List Node} (hT : ∀ t ∈ ts, T t)
    (h : Initializer ts ns) : ∀ n ∈ ns, IsStatement T n := by
  cases h with
  | none => simp
  | var _ h =>
    have hn := h.isStatement fun t ht => hT t (by simp [ht])
    simpa using hn
  | expression h => simpa using h.isStatement hT

theorem Condition.isExpression (hs : TokenSort T) {keyword : Token} {ts : List Token} {n : Node}
    (hk : T keyword) (hT : ∀ t ∈ ts, T t) (h : Condition keyword ts n) : IsExpression T n := by
  cases h with
  | none => exact .literal (hs.whenLeftOut hk) (by simp [literals])
  | some h => exact h.isExpression hT

theorem Increment.isStatement {ts : List Token} {ns : List Node} (hT : ∀ t ∈ ts, T t)
    (h : Increment ts ns) : ∀ n ∈ ns, IsStatement T n := by
  cases h with
  | none => simp
  | some h => simpa using IsStatement.expression (h.isExpression hT)

mutual

theorem Statement.isStatement (hs : TokenSort T) {fn dangling : Bool} {ts : List Token} {n : Node}
    (hT : ∀ t ∈ ts, T t) : Statement fn dangling ts n → IsStatement T n
  | .expression h => h.isStatement hT
  | .print _ h _ => .print (h.isExpression fun t ht => hT t (by simp [ht]))
  | .bareReturn hk _ => .bareReturn (hT _ (by simp)) hk
  | .return hk h _ => .return (hT _ (by simp)) hk (h.isExpression fun t ht => hT t (by simp [ht]))
  | .block _ h _ => .block (h.isStatement hs fun t ht => hT t (by simp [ht]))
  | .ifThen _ _ h _ hn => .ifThen (h.isExpression fun t ht => hT t (by simp [ht]))
      (hn.isStatement hs fun t ht => hT t (by simp [ht]))
  | .ifElse _ _ h _ hn _ hm => .ifElse (h.isExpression fun t ht => hT t (by simp [ht]))
      (hn.isStatement hs fun t ht => hT t (by simp [ht]))
      (hm.isStatement hs fun t ht => hT t (by simp [ht]))
  | .whileDo _ _ h _ hn => .whileDo (h.isExpression fun t ht => hT t (by simp [ht]))
      (hn.isStatement hs fun t ht => hT t (by simp [ht]))
  | .forLoop _ _ hi hd _ ha _ hn => by
    have hbefore := hi.isStatement fun t ht => hT t (by simp [ht])
    have hc := hd.isExpression hs (hT _ (by simp)) fun t ht => hT t (by simp [ht])
    have hafter := ha.isStatement fun t ht => hT t (by simp [ht])
    have hbody := hn.isStatement hs fun t ht => hT t (by simp [ht])
    have hturn := IsStatement.block (List.forall_mem_cons.2 ⟨hbody, hafter⟩)
    refine .block (List.forall_mem_append.2 ⟨hbefore, ?_⟩)
    simpa using IsStatement.whileDo hc hturn

theorem Declaration.isStatement (hs : TokenSort T) {fn : Bool} {ts : List Token} {n : Node}
    (hT : ∀ t ∈ ts, T t) : Declaration fn ts n → IsStatement T n
  | .var _ h => h.isStatement fun t ht => hT t (by simp [ht])
  | .function _ hn _ hp _ _ h _ => .function (.mk (hT _ (by simp)) hn)
      (hp.isName fun t ht => hT t (by simp [ht]))
      (h.isStatement hs fun t ht => hT t (by simp [ht]))
  | .statement h => h.isStatement hs hT

theorem Declarations.isStatement (hs : TokenSort T) {fn : Bool} {ts : List Token} {ns : List Node}
    (hT : ∀ t ∈ ts, T t) : Declarations fn ts ns → ∀ n ∈ ns, IsStatement T n
  | .nil => by simp
  | .cons h hr => List.forall_mem_cons.2 ⟨h.isStatement hs fun t ht => hT t (by simp [ht]),
      hr.isStatement hs fun t ht => hT t (by simp [ht])⟩

end

theorem Program.wellFormed (hs : TokenSort T) {tokens : List Token} {p : List Node}
    (hT : ∀ t ∈ tokens, T t) (h : Program tokens p) : Lox.Program.WellFormed T p := by
  obtain ⟨h, _⟩ := h
  exact h.isStatement hs fun t ht => hT t (by simp [ht])

end Grammar

end Lox
