import Lox.Proofs.Node.Likeness

/-!
Trees with other tokens in the places of theirs, above all with tokens that stand on other lines.
-/

set_option autoImplicit false

namespace Lox

namespace Token

/-- The token, so many lines further down. -/
def down (k : Nat) (t : Token) : Token := { t with line := t.line + k }

theorem sameText_down (k : Nat) (t : Token) : t.SameText (t.down k) := ⟨rfl, rfl, rfl⟩

end Token

namespace Node

mutual

/-- The tree with all tokens changed. -/
def map (f : Token → Token) : Node → Node
  | .missing => .missing
  | .token t => .token (f t)
  | .expression n => .expression (map f n)
  | .print n => .print (map f n)
  | .var name n => .var (map f name) (map f n)
  | .block ns => .block (mapAll f ns)
  | .ifElse c n e => .ifElse (map f c) (map f n) (map f e)
  | .whileDo c n => .whileDo (map f c) (map f n)
  | .function name params body => .function (map f name) (mapAll f params) (map f body)
  | .ret keyword n => .ret (map f keyword) (map f n)
  | .literal t => .literal (map f t)
  | .grouping n => .grouping (map f n)
  | .unary op n => .unary (map f op) (map f n)
  | .binary l op r => .binary (map f l) (map f op) (map f r)
  | .logical l op r => .logical (map f l) (map f op) (map f r)
  | .variable name => .variable (map f name)
  | .assign name n => .assign (map f name) (map f n)
  | .call callee paren ns => .call (map f callee) (map f paren) (mapAll f ns)

def mapAll (f : Token → Token) : List Node → List Node
  | [] => []
  | n :: ns => map f n :: mapAll f ns

end

variable {f : Token → Token} {T : Token → Token → Prop}

theorem mapAll_eq (ns : List Node) : mapAll f ns = ns.map (map f) := by
  induction ns with
  | nil => rfl
  | cons n ns ih => rw [mapAll, ih, List.map_cons]

mutual

theorem like_map (hT : ∀ t, T t (f t)) : ∀ n, Like T n (map f n)
  | .missing => .missing
  | .token t => .token (hT t)
  | .expression n => .expression (like_map hT n)
  | .print n => .print (like_map hT n)
  | .var name n => .var (like_map hT name) (like_map hT n)
  | .block ns => .block (like_mapAll hT ns)
  | .ifElse c n e => .ifElse (like_map hT c) (like_map hT n) (like_map hT e)
  | .whileDo c n => .whileDo (like_map hT c) (like_map hT n)
  | .function name params body =>
    .function (like_map hT name) (like_mapAll hT params) (like_map hT body)
  | .ret keyword n => .ret (like_map hT keyword) (like_map hT n)
  | .literal t => .literal (like_map hT t)
  | .grouping n => .grouping (like_map hT n)
  | .unary op n => .unary (like_map hT op) (like_map hT n)
  | .binary l op r => .binary (like_map hT l) (like_map hT op) (like_map hT r)
  | .logical l op r => .logical (like_map hT l) (like_map hT op) (like_map hT r)
  | .variable name => .variable (like_map hT name)
  | .assign name n => .assign (like_map hT name) (like_map hT n)
  | .call callee paren ns => .call (like_map hT callee) (like_map hT paren) (like_mapAll hT ns)

theorem like_mapAll (hT : ∀ t, T t (f t)) : ∀ ns, List.Forall₂ (Like T) ns (mapAll f ns)
  | [] => .nil
  | n :: ns => .cons (like_map hT n) (like_mapAll hT ns)

end

end Node

end Lox
