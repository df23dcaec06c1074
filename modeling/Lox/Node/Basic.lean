import Lox.Token.Basic

/-!
Syntax trees. One type holds expressions, statements, tokens and the absence of a child, because a
tree that was loaded from a record may have any of them at any place. The trees of the parser have
each at its own place.
-/

set_option autoImplicit false

namespace Lox

inductive Node where
  | missing
  | token (t : Token)
  | expression (value : Node)
  | print (value : Node)
  | var (name initializer : Node)
  | block (statements : List Node)
  | ifElse (condition thenBranch elseBranch : Node)
  | whileDo (condition body : Node)
  | function (name : Node) (params : List Node) (body : Node)
  | ret (keyword value : Node)
  | literal (t : Node)
  | grouping (value : Node)
  | unary (operator right : Node)
  | binary (left operator right : Node)
  | logical (left operator right : Node)
  | variable (name : Node)
  | assign (name value : Node)
  | call (callee paren : Node) (arguments : List Node)
  deriving Repr, Inhabited

namespace Node

/-- The name of a node's form. A token and an absent child have none. -/
def form? : Node → Option String
  | .missing => none
  | .token _ => none
  | .expression _ => some "Expression"
  | .print _ => some "Print"
  | .var _ _ => some "Var"
  | .block _ => some "Block"
  | .ifElse _ _ _ => some "If"
  | .whileDo _ _ => some "While"
  | .function _ _ _ => some "Function"
  | .ret _ _ => some "Return"
  | .literal _ => some "Literal"
  | .grouping _ => some "Grouping"
  | .unary _ _ => some "Unary"
  | .binary _ _ _ => some "Binary"
  | .logical _ _ _ => some "Logical"
  | .variable _ => some "Variable"
  | .assign _ _ => some "Assign"
  | .call _ _ _ => some "Call"

/-- The children in the order in which they are kept. -/
def children : Node → List Node
  | .missing => []
  | .token _ => []
  | .expression value => [value]
  | .print value => [value]
  | .var name initializer => [name, initializer]
  | .block statements => statements
  | .ifElse condition thenBranch elseBranch => [condition, thenBranch, elseBranch]
  | .whileDo condition body => [condition, body]
  | .function name params body => name :: params ++ [body]
  | .ret keyword value => [keyword, value]
  | .literal t => [t]
  | .grouping value => [value]
  | .unary operator right => [operator, right]
  | .binary left operator right => [left, operator, right]
  | .logical left operator right => [left, operator, right]
  | .variable name => [name]
  | .assign name value => [name, value]
  | .call callee paren arguments => callee :: paren :: arguments

-- The sum starts from the numeral zero, also where other zeros are at hand.
attribute [local instance (high)] Zero.ofOfNat0

/-- How much is left to visit below a list of nodes. -/
noncomputable def weight (pending : List Node) : Nat := (pending.map sizeOf).sum

@[simp] theorem weight_nil : weight [] = 0 := rfl

@[simp] theorem weight_cons (n : Node) (pending : List Node) :
    weight (n :: pending) = sizeOf n + weight pending := by simp [weight]

@[simp] theorem weight_append (a b : List Node) : weight (a ++ b) = weight a + weight b := by
  simp [weight]

theorem weight_le (ns : List Node) : weight ns ≤ sizeOf ns := by
  induction ns with
  | nil => simp
  | cons n ns ih => simp; omega

theorem weight_children_lt (n : Node) : weight n.children < sizeOf n := by
  cases n with
  | block statements => have := weight_le statements; simp [children]; omega
  | function name params body => have := weight_le params; simp [children]; omega
  | call callee paren arguments => have := weight_le arguments; simp [children]; omega
  | _ => simp [children] <;> omega

/-- The first token in or below the pending nodes. A node is replaced by its children, so the walk
needs no room for the depth of a tree. -/
def firstToken : List Node → Option Token
  | [] => none
  | .token t :: _ => some t
  | n :: pending => firstToken (n.children ++ pending)
termination_by pending => weight pending
decreasing_by
  have := weight_children_lt n
  simp
  omega

/-- The leftmost token of a tree. -/
def leadingToken (n : Node) : Option Token := firstToken [n]

end Node

/-- A program is its statements in order. -/
abbrev Program := List Node

end Lox
