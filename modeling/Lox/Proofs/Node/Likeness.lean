import Mathlib.Data.List.Forall2
import Lox.Node.Basic

/-!
Trees that differ in their tokens alone. Two such trees have the same form, and their tokens, taken in
order, are related one by one.
-/

set_option autoImplicit false

namespace Lox

/-- Tokens that differ in their lines at most. -/
structure Token.SameText (t t' : Token) : Prop where
  kind : t'.kind = t.kind
  lexeme : t'.lexeme = t.lexeme
  literal : t'.literal = t.literal

theorem Token.SameText.name?_eq {t t' : Token} (h : t.SameText t') : t'.name? = t.name? := by
  rw [Token.name?, Token.name?, h.lexeme]

namespace Node

/-- Trees of the same form with tokens that are related. -/
inductive Like (T : Token → Token → Prop) : Node → Node → Prop where
  | missing : Like T .missing .missing
  | token {t t' : Token} (h : T t t') : Like T (.token t) (.token t')
  | expression {n n' : Node} (h : Like T n n') : Like T (.expression n) (.expression n')
  | print {n n' : Node} (h : Like T n n') : Like T (.print n) (.print n')
  | var {name name' n n' : Node} (hn : Like T name name') (h : Like T n n') :
      Like T (.var name n) (.var name' n')
  | block {ns ns' : List Node} (hs : List.Forall₂ (Like T) ns ns') :
      Like T (.block ns) (.block ns')
  | ifElse {c c' n n' e e' : Node} (hc : Like T c c') (h : Like T n n') (he : Like T e e') :
      Like T (.ifElse c n e) (.ifElse c' n' e')
  | whileDo {c c' n n' : Node} (hc : Like T c c') (h : Like T n n') :
      Like T (.whileDo c n) (.whileDo c' n')
  | function {name name' body body' : Node} {params params' : List Node} (hn : Like T name name')
      (hp : List.Forall₂ (Like T) params params') (hb : Like T body body') :
      Like T (.function name params body) (.function name' params' body')
  | ret {keyword keyword' n n' : Node} (hk : Like T keyword keyword') (h : Like T n n') :
      Like T (.ret keyword n) (.ret keyword' n')
  | literal {t t' : Node} (ht : Like T t t') : Like T (.literal t) (.literal t')
  | grouping {n n' : Node} (h : Like T n n') : Like T (.grouping n) (.grouping n')
  | unary {op op' n n' : Node} (ho : Like T op op') (h : Like T n n') :
      Like T (.unary op n) (.unary op' n')
  | binary {l l' op op' r r' : Node} (hl : Like T l l') (ho : Like T op op') (hr : Like T r r') :
      Like T (.binary l op r) (.binary l' op' r')
  | logical {l l' op op' r r' : Node} (hl : Like T l l') (ho : Like T op op') (hr : Like T r r') :
      Like T (.logical l op r) (.logical l' op' r')
  | variable {name name' : Node} (hn : Like T name name') : Like T (.variable name) (.variable name')
  | assign {name name' n n' : Node} (hn : Like T name name') (h : Like T n n') :
      Like T (.assign name n) (.assign name' n')
  | call {callee callee' paren paren' : Node} {ns ns' : List Node} (h : Like T callee callee')
      (hp : Like T paren paren') (hs : List.Forall₂ (Like T) ns ns') :
      Like T (.call callee paren ns) (.call callee' paren' ns')

variable {T U : Token → Token → Prop}

mutual

theorem Like.refl (hT : ∀ t, T t t) : ∀ n, Like T n n
  | .missing => .missing
  | .token t => .token (hT t)
  | .expression n => .expression (Like.refl hT n)
  | .print n => .print (Like.refl hT n)
  | .var name n => .var (Like.refl hT name) (Like.refl hT n)
  | .block ns => .block (Like.refl_all hT ns)
  | .ifElse c n e => .ifElse (Like.refl hT c) (Like.refl hT n) (Like.refl hT e)
  | .whileDo c n => .whileDo (Like.refl hT c) (Like.refl hT n)
  | .function name params body =>
    .function (Like.refl hT name) (Like.refl_all hT params) (Like.refl hT body)
  | .ret keyword n => .ret (Like.refl hT keyword) (Like.refl hT n)
  | .literal t => .literal (Like.refl hT t)
  | .grouping n => .grouping (Like.refl hT n)
  | .unary op n => .unary (Like.refl hT op) (Like.refl hT n)
  | .binary l op r => .binary (Like.refl hT l) (Like.refl hT op) (Like.refl hT r)
  | .logical l op r => .logical (Like.refl hT l) (Like.refl hT op) (Like.refl hT r)
  | .variable name => .variable (Like.refl hT name)
  | .assign name n => .assign (Like.refl hT name) (Like.refl hT n)
  | .call callee paren ns => .call (Like.refl hT callee) (Like.refl hT paren) (Like.refl_all hT ns)

theorem Like.refl_all (hT : ∀ t, T t t) : ∀ ns, List.Forall₂ (Like T) ns ns
  | [] => .nil
  | n :: ns => .cons (Like.refl hT n) (Like.refl_all hT ns)

end

/-- The tokens of a tree. -/
inductive Has : Node → Token → Prop where
  | token (t : Token) : Has (.token t) t
  | child {n child : Node} {t : Token} (hc : child ∈ n.children) (h : Has child t) : Has n t

/-- What is so of the tokens of a tree is so of those of a child. -/
theorem imp_child {n child : Node} (hU : ∀ t t', n.Has t → T t t' → U t t')
    (hc : child ∈ n.children) : ∀ t t', child.Has t → T t t' → U t t' :=
  fun t t' h => hU t t' (.child hc h)

mutual

/-- Of a relation between tokens only what it says of the tokens of a tree matters. -/
theorem Like.imp {n n' : Node} (hU : ∀ t t', n.Has t → T t t' → U t t') : Like T n n' → Like U n n'
  | .missing => .missing
  | .token h => .token (hU _ _ (.token _) h)
  | .expression h => .expression (h.imp (imp_child hU (.head _)))
  | .print h => .print (h.imp (imp_child hU (.head _)))
  | .var hn h => .var (hn.imp (imp_child hU (.head _))) (h.imp (imp_child hU (.tail _ (.head _))))
  | .block hs => .block (Like.imp_all (fun _ => imp_child hU) hs)
  | .ifElse hc h he => .ifElse (hc.imp (imp_child hU (.head _)))
      (h.imp (imp_child hU (.tail _ (.head _))))
      (he.imp (imp_child hU (.tail _ (.tail _ (.head _)))))
  | .whileDo hc h => .whileDo (hc.imp (imp_child hU (.head _)))
      (h.imp (imp_child hU (.tail _ (.head _))))
  | .function hn hp hb => .function (hn.imp (imp_child hU (.head _)))
      (Like.imp_all (fun _ h => imp_child hU (.tail _ (List.mem_append_left _ h))) hp)
      (hb.imp (imp_child hU (.tail _ (List.mem_append_right _ (.head _)))))
  | .ret hk h => .ret (hk.imp (imp_child hU (.head _))) (h.imp (imp_child hU (.tail _ (.head _))))
  | .literal ht => .literal (ht.imp (imp_child hU (.head _)))
  | .grouping h => .grouping (h.imp (imp_child hU (.head _)))
  | .unary ho h => .unary (ho.imp (imp_child hU (.head _)))
      (h.imp (imp_child hU (.tail _ (.head _))))
  | .binary hl ho hr => .binary (hl.imp (imp_child hU (.head _)))
      (ho.imp (imp_child hU (.tail _ (.head _))))
      (hr.imp (imp_child hU (.tail _ (.tail _ (.head _)))))
  | .logical hl ho hr => .logical (hl.imp (imp_child hU (.head _)))
      (ho.imp (imp_child hU (.tail _ (.head _))))
      (hr.imp (imp_child hU (.tail _ (.tail _ (.head _)))))
  | .variable hn => .variable (hn.imp (imp_child hU (.head _)))
  | .assign hn h => .assign (hn.imp (imp_child hU (.head _)))
      (h.imp (imp_child hU (.tail _ (.head _))))
  | .call h hp hs => .call (h.imp (imp_child hU (.head _)))
      (hp.imp (imp_child hU (.tail _ (.head _))))
      (Like.imp_all (fun _ h => imp_child hU (.tail _ (.tail _ h))) hs)

theorem Like.imp_all {ns ns' : List Node} (hU : ∀ n ∈ ns, ∀ t t', n.Has t → T t t' → U t t') :
    List.Forall₂ (Like T) ns ns' → List.Forall₂ (Like U) ns ns'
  | .nil => .nil
  | .cons h hs => .cons (h.imp (hU _ (.head _))) (Like.imp_all (fun n hn => hU n (.tail _ hn)) hs)

end

theorem Like.children {n n' : Node} (h : Like T n n') :
    List.Forall₂ (Like T) n.children n'.children := by
  cases h with
  | missing => exact .nil
  | token => exact .nil
  | expression h => exact .cons h .nil
  | print h => exact .cons h .nil
  | var hn h => exact .cons hn (.cons h .nil)
  | block hs => exact hs
  | ifElse hc h he => exact .cons hc (.cons h (.cons he .nil))
  | whileDo hc h => exact .cons hc (.cons h .nil)
  | function hn hp hb => exact .cons hn (List.rel_append hp (.cons hb .nil))
  | ret hk h => exact .cons hk (.cons h .nil)
  | literal ht => exact .cons ht .nil
  | grouping h => exact .cons h .nil
  | unary ho h => exact .cons ho (.cons h .nil)
  | binary hl ho hr => exact .cons hl (.cons ho (.cons hr .nil))
  | logical hl ho hr => exact .cons hl (.cons ho (.cons hr .nil))
  | «variable» hn => exact .cons hn .nil
  | assign hn h => exact .cons hn (.cons h .nil)
  | call h hp hs => exact .cons h (.cons hp hs)

theorem firstToken_like {ns ns' : List Node} (h : List.Forall₂ (Like T) ns ns') :
    Option.Rel T (firstToken ns) (firstToken ns') := by
  induction ns using firstToken.induct generalizing ns' with
  | case1 =>
    cases h
    rw [firstToken]
    exact .none
  | case2 t pending =>
    cases h with
    | cons hn hs =>
      cases hn with
      | token ht =>
        rw [firstToken, firstToken]
        exact .some ht
  | case3 n pending hn ih =>
    cases h with
    | cons hlike hs =>
      rw [firstToken, firstToken]
      · exact ih (List.rel_append hlike.children hs)
      · intro t ht
        subst ht
        cases hlike
        exact hn _ rfl
      · exact hn

theorem Like.leadingToken {n n' : Node} (h : Like T n n') :
    Option.Rel T n.leadingToken n'.leadingToken := firstToken_like (.cons h .nil)

end Node

end Lox
