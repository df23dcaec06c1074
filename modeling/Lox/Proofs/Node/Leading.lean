import Lox.Proofs.Node.Likeness

/-!
The leftmost token of a tree. The walk that looks for it keeps a stack of what it has not seen yet,
nodes and whole lists of them. Main statement: the walk ends, and it ends at the first of the tree's
tokens in the order of its fields.
-/

set_option autoImplicit false

namespace Lox.Node

mutual

/-- The tokens of a tree in the order of its fields. -/
def tokens : Node → List Token
  | .missing => []
  | .token t => [t]
  | .expression value => tokens value
  | .print value => tokens value
  | .var name initializer => tokens name ++ tokens initializer
  | .block statements => allTokens statements
  | .ifElse condition thenBranch elseBranch =>
    tokens condition ++ tokens thenBranch ++ tokens elseBranch
  | .whileDo condition body => tokens condition ++ tokens body
  | .function name params body => tokens name ++ allTokens params ++ tokens body
  | .ret keyword value => tokens keyword ++ tokens value
  | .literal t => tokens t
  | .grouping value => tokens value
  | .unary operator right => tokens operator ++ tokens right
  | .binary left operator right => tokens left ++ tokens operator ++ tokens right
  | .logical left operator right => tokens left ++ tokens operator ++ tokens right
  | .variable name => tokens name
  | .assign name value => tokens name ++ tokens value
  | .call callee paren arguments => tokens callee ++ tokens paren ++ allTokens arguments

def allTokens : List Node → List Token
  | [] => []
  | n :: ns => tokens n ++ allTokens ns

end

@[simp] theorem tokens_token (t : Token) : (token t).tokens = [t] := rfl

@[simp] theorem allTokens_nil : allTokens [] = [] := rfl

@[simp] theorem allTokens_cons (n : Node) (ns : List Node) :
    allTokens (n :: ns) = n.tokens ++ allTokens ns := rfl

@[simp] theorem allTokens_append (ns ms : List Node) :
    allTokens (ns ++ ms) = allTokens ns ++ allTokens ms := by
  induction ns with
  | nil => rfl
  | cons n ns ih => simp [ih]

theorem mem_allTokens {t : Token} {ns : List Node} : t ∈ allTokens ns ↔ ∃ n ∈ ns, t ∈ n.tokens := by
  induction ns with
  | nil => simp
  | cons n ns ih => simp [ih]

/-- All but a token has the tokens of its children. -/
theorem tokens_eq_children {n : Node} (hn : ∀ t, n ≠ .token t) :
    n.tokens = allTokens n.children := by
  cases n with
  | token t => exact absurd rfl (hn t)
  | _ => simp [tokens, children]

/-- What holds of a node whenever it holds of its children holds of every node. -/
theorem induction_children {P : Node → Prop} (step : ∀ n, (∀ c ∈ n.children, P c) → P n) (n : Node) :
    P n := by
  induction h : sizeOf n using Nat.strongRecOn generalizing n with
  | ind size ih =>
    subst h
    refine step n fun c hc => ih (sizeOf c) ?_ c rfl
    obtain ⟨before, after, hs⟩ := List.append_of_mem hc
    have hlt := weight_children_lt n
    rw [hs, weight_append, weight_cons] at hlt
    omega

theorem mem_tokens {t : Token} {n : Node} : t ∈ n.tokens ↔ n.Has t := by
  constructor
  · intro h
    induction n using induction_children with
    | step n ih =>
      by_cases hn : ∃ u, n = .token u
      · obtain ⟨u, rfl⟩ := hn
        obtain rfl : t = u := by simpa using h
        exact .token t
      · rw [tokens_eq_children (by simpa using hn)] at h
        obtain ⟨c, hc, ht⟩ := mem_allTokens.1 h
        exact .child hc (ih c hc ht)
  · intro h
    induction h with
    | token t => simp
    | @child n c t hc _ ih =>
      have hn : ∀ u, n ≠ .token u := by
        rintro u rfl
        exact nomatch hc
      rw [tokens_eq_children hn]
      exact mem_allTokens.2 ⟨c, hc, ih⟩

/-- The first token of a list of trees is the first in the order of their fields. -/
theorem firstToken_eq (ns : List Node) : firstToken ns = (allTokens ns).head? := by
  induction ns using firstToken.induct with
  | case1 => rw [firstToken, allTokens_nil, List.head?_nil]
  | case2 t pending => simp [firstToken]
  | case3 n pending hn ih =>
    rw [firstToken, ih, allTokens_cons, allTokens_append, tokens_eq_children hn]
    exact hn

theorem leadingToken_eq (n : Node) : n.leadingToken = n.tokens.head? := by
  rw [leadingToken, firstToken_eq]
  simp

theorem leadingToken_eq_none_iff (n : Node) : n.leadingToken = none ↔ n.tokens = [] := by
  rw [leadingToken_eq, List.head?_eq_none_iff]

/-- What waits on the stack of the walk. -/
inductive Pending where
  | one (n : Node)
  | many (ns : List Node)

/-- The fields of a node. A list of nodes is one field. -/
def items : Node → List Pending
  | .missing => []
  | .token _ => []
  | .block statements => [.many statements]
  | .function name params body => [.one name, .many params, .one body]
  | .call callee paren arguments => [.one callee, .one paren, .many arguments]
  | n => n.children.map .one

namespace Pending

/-- What an item gives way to on the stack. -/
def parts : Pending → List Pending
  | .one n => n.items
  | .many ns => ns.map .one

def tokens : Pending → List Token
  | .one n => n.tokens
  | .many ns => allTokens ns

noncomputable def weight : Pending → Nat
  | .one n => sizeOf n
  | .many ns => sizeOf ns

end Pending

/-- The walk, the top of the stack first: it ends at a token or when nothing is left. -/
def walk : Nat → List Pending → Option (Option Token)
  | 0, _ => none
  | _ + 1, [] => some none
  | _ + 1, .one (.token t) :: _ => some (some t)
  | turns + 1, item :: stack => walk turns (item.parts ++ stack)

namespace Pending

-- The sum starts from the numeral zero, also where other zeros are at hand.
attribute [local instance (high)] Zero.ofOfNat0

/-- How much is left to visit. -/
noncomputable def load (stack : List Pending) : Nat := (stack.map weight).sum

theorem tokens_ones (ns : List Node) : (ns.map one).flatMap tokens = allTokens ns := by
  induction ns with
  | nil => rfl
  | cons n ns ih => simp [tokens, ih]

theorem load_ones (ns : List Node) : load (ns.map one) = Node.weight ns := by
  simp [load, Node.weight, Function.comp_def, weight]

theorem weight_items_lt (ns : List Node) : Node.weight ns < sizeOf ns := by
  induction ns with
  | nil => simp
  | cons n ns ih =>
    simp
    omega

/-- A turn that does not end the walk leaves the tokens on the stack as they are. -/
theorem tokens_parts {item : Pending} (h : ∀ t, item ≠ .one (.token t)) :
    item.parts.flatMap tokens = item.tokens := by
  cases item with
  | many ns => exact tokens_ones ns
  | one n =>
    have hn : ∀ t, n ≠ .token t := fun t ht => h t (by rw [ht])
    cases n with
    | token t => exact absurd rfl (hn t)
    | _ => simp [parts, items, tokens, Node.tokens, children]

/-- A turn that does not end the walk takes more from the stack than it puts there. -/
theorem load_parts_lt (item : Pending) : load item.parts < item.weight := by
  cases item with
  | many ns =>
    rw [parts, load_ones]
    exact weight_items_lt ns
  | one n => cases n <;> simp [parts, items, load, weight, children] <;> omega

end Pending

/-- With a turn for each part of what is on the stack, the walk ends, at the first token there. -/
theorem walk_eq (turns : Nat) (stack : List Pending) (h : Pending.load stack < turns) :
    walk turns stack = some (stack.flatMap Pending.tokens).head? := by
  induction turns generalizing stack with
  | zero => omega
  | succ turns ih =>
    cases stack with
    | nil => rfl
    | cons item stack =>
      by_cases hitem : ∃ t, item = .one (.token t)
      · obtain ⟨t, rfl⟩ := hitem
        simp [walk, Pending.tokens]
      · have hne : ∀ t, item ≠ .one (.token t) := by simpa using hitem
        have hlt := Pending.load_parts_lt item
        have hload : Pending.load (item.parts ++ stack) < turns := by
          simp only [Pending.load, List.map_append, List.sum_append, List.map_cons,
            List.sum_cons] at h hlt ⊢
          omega
        rw [walk, ih _ hload, List.flatMap_append, Pending.tokens_parts hne, List.flatMap_cons]
        exact hne

theorem walk_leadingToken (n : Node) :
    ∃ least, ∀ turns, least ≤ turns → walk turns [.one n] = some n.leadingToken := by
  refine ⟨Pending.load [.one n] + 1, fun turns h => ?_⟩
  rw [walk_eq turns _ h, leadingToken_eq]
  simp [Pending.tokens]

end Lox.Node
