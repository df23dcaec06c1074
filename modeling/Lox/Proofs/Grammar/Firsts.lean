import Lox.Proofs.Grammar.Productions

/-!
What the words of a symbol begin with, and what may come after them. Main statements: an expression
begins with one of its openers, a statement and a declaration with one of theirs.
-/

set_option autoImplicit false

namespace Lox.Grammar

open scoped Computability

namespace Words

variable {ks ls : List Kind} {K L M : Words}

/-- There is a word at all. -/
def Possible (L : Words) : Prop := ∃ w, w ∈ L

theorem Possible.mul (hL : Possible L) (hM : Possible M) : Possible (L * M) := by
  obtain ⟨v, hv⟩ := hL
  obtain ⟨w, hw⟩ := hM
  exact ⟨v ++ w, Language.append_mem_mul hv hw⟩

theorem Possible.add (hL : Possible L) (M : Words) : Possible (L + M) := hL.imp fun _ => .inl

theorem Possible.one : Possible 1 := ⟨[], rfl⟩

theorem Possible.ofKinds (hk : ks ≠ []) : Possible (ofKinds ks) := by
  obtain ⟨k, hk⟩ := List.exists_mem_of_ne_nil ks hk
  exact ⟨[⟨k, .null, .null, 1⟩], _, rfl, hk⟩

theorem Possible.mark (k : Kind) (hK : Possible K) : Possible (Words.ofKinds [k] * K) :=
  (Possible.ofKinds (by simp)).mul hK

theorem Possible.kstar_mul (hK : Possible K) : Possible (L∗ * K) := by
  rw [Words.kstar_mul]
  exact hK.add _

/-- Every word begins with a token of one of the kinds. -/
def Begins (ks : List Kind) (L : Words) : Prop := ∀ w ∈ L, ∃ t us, w = t :: us ∧ t.kind ∈ ks

/-- No word begins with a token of one of the kinds. -/
def Avoids (ks : List Kind) (L : Words) : Prop := ∀ t w, t.kind ∈ ks → t :: w ∉ L

namespace Begins

theorem ofKinds (ks : List Kind) : Begins ks (ofKinds ks) := by
  rintro _ ⟨t, rfl, ht⟩
  exact ⟨t, [], rfl, ht⟩

theorem mul (h : Begins ks L) (M : Words) : Begins ks (L * M) := by
  rintro _ ⟨v, hv, w, _, rfl⟩
  obtain ⟨t, us, rfl, ht⟩ := h v hv
  exact ⟨t, us ++ w, rfl, ht⟩

theorem add (hL : Begins ks L) (hM : Begins ks M) : Begins ks (L + M) := fun w hw =>
  hw.elim (hL w) (hM w)

theorem mono (h : Begins ls L) (hs : ∀ k ∈ ls, k ∈ ks) : Begins ks L := fun w hw => by
  obtain ⟨t, us, he, ht⟩ := h w hw
  exact ⟨t, us, he, hs _ ht⟩

theorem avoids (h : Begins ls L) (hd : ∀ k ∈ ls, k ∉ ks) : Avoids ks L := fun t w ht hw => by
  obtain ⟨_, _, ⟨⟩, hu⟩ := h _ hw
  exact hd _ hu ht

end Begins

theorem Avoids.mono (h : Avoids ks L) (hs : ∀ k ∈ ls, k ∈ ks) : Avoids ls L := fun t w ht =>
  h t w (hs _ ht)

theorem Avoids.add (hL : Avoids ks L) (hM : Avoids ks M) : Avoids ks (L + M) := fun t w ht hw =>
  hw.elim (hL t w ht) (hM t w ht)

/-- What may come after something that would go on with the kinds. -/
structure Follows (ks : List Kind) (K : Words) : Prop where
  possible : Possible K
  avoids : Avoids ks K

namespace Follows

theorem mono (h : Follows ks K) (hs : ∀ k ∈ ls, k ∈ ks) : Follows ls K :=
  ⟨h.possible, h.avoids.mono hs⟩

theorem mark {k : Kind} (hK : Possible K) (hk : k ∉ ks) : Follows ks (Words.ofKinds [k] * K) :=
  ⟨hK.mark k, ((Begins.ofKinds [k]).mul K).avoids (by simpa using hk)⟩

theorem add (hK : Follows ks K) (hL : Avoids ks L) : Follows ks (K + L) :=
  ⟨hK.possible.add L, hK.avoids.add hL⟩

theorem kstar_mul (hK : Follows ks K) (hL : Begins ls L) (hd : ∀ k ∈ ls, k ∉ ks) :
    Follows ks (L∗ * K) := by
  rw [Words.kstar_mul]
  exact hK.add ((hL.mul _).avoids hd)

end Follows

end Words

open Words

/-- What holds of primary expressions and passes on from each rank to the next looser one holds of
every rank. -/
theorem Rank.climb {P : Rank → Prop} (primary : P .primary) (call : P .primary → P .call)
    (unary : P .call → P .unary)
    (joined : ∀ {rank next : Rank}, rank.tighter? = some next → rank.operators ≠ [] →
      P next → P rank)
    (assignment : P .or → P .assignment) (rank : Rank) : P rank := by
  have hcall : P .call := call primary
  have hunary : P .unary := unary hcall
  have hfactor : P .factor := joined rfl (by decide) hunary
  have hterm : P .term := joined rfl (by decide) hfactor
  have hcomparison : P .comparison := joined rfl (by decide) hterm
  have hequality : P .equality := joined rfl (by decide) hcomparison
  have hand : P .and := joined rfl (by decide) hequality
  have hor : P .or := joined rfl (by decide) hand
  cases rank with
  | assignment => exact assignment hor
  | _ => assumption

namespace Symbol

theorem phrase_possible (rank : Rank) : Possible (phrase rank).words := by
  have hprimary : Possible (phrase .primary).words := by
    rw [← mul_one (words _), primary_mul]
    exact (((Possible.ofKinds (by decide)).mul .one).add _).add _
  refine Rank.climb (P := fun rank => Possible (phrase rank).words) hprimary (fun h => ?_) (fun h => ?_)
    (fun hr hi h => ?_) (fun h => ?_) rank <;> rw [← mul_one (words _)]
  · rw [call_mul]
    exact h.mul (.kstar_mul .one)
  · rw [unary_mul]
    exact (h.mul .one).add _
  · rw [infix_mul 1 hr hi]
    exact h.mul (.kstar_mul .one)
  · rw [assignment_mul]
    exact h.mul (Possible.one.add _)

theorem expressionStatement_possible : Possible expressionStatement.words := by
  rw [← mul_one (words _), expressionStatement_mul]
  exact (phrase_possible .assignment).mul (Possible.one.mark _)

theorem statement_possible : Possible statement.words := by
  have hexpression := expressionStatement_possible.mul .one
  rw [← mul_one (words _), statement_mul]
  exact (((((hexpression.add _).add _).add _).add _).add _).add _

theorem initializer_possible : Possible initializer.words := by
  have hexpression := expressionStatement_possible.mul .one
  rw [← mul_one (words _), initializer_mul]
  exact (hexpression.add _).add _

theorem parameters_possible : Possible parameters.words := by
  rw [← mul_one (words _), parameters_mul]
  exact Possible.one.add _

theorem block_possible : Possible block.words := by
  rw [← mul_one (words _), block_mul]
  exact .kstar_mul (Possible.one.mark _)

theorem primary_begins : Begins (openers.drop 2) (phrase .primary).words := by
  rw [← mul_one (words _), primary_mul]
  refine .add (.add ?_ ?_) ?_
  · exact ((Begins.ofKinds _).mul 1).mono (by decide)
  · exact ((Begins.ofKinds _).mul 1).mono (by decide)
  · exact ((Begins.ofKinds _).mul _).mono (by decide)

theorem call_begins : Begins (openers.drop 2) (phrase .call).words := by
  rw [← mul_one (words _), call_mul]
  exact primary_begins.mul _

theorem phrase_begins (rank : Rank) : Begins openers (phrase rank).words := by
  have hprimary : Begins openers (phrase .primary).words := primary_begins.mono (by decide)
  have hcall : Begins openers (phrase .call).words := call_begins.mono (by decide)
  refine Rank.climb (P := fun rank => Begins openers (phrase rank).words) hprimary (fun _ => hcall)
    (fun h => ?_) (fun hr hi h => ?_) (fun h => ?_) rank <;> rw [← mul_one (words _)]
  · rw [unary_mul]
    exact .add (h.mul 1) (((Begins.ofKinds _).mul _).mono (by decide))
  · rw [infix_mul 1 hr hi]
    exact h.mul _
  · rw [assignment_mul]
    exact h.mul _

theorem expressionStatement_begins : Begins openers expressionStatement.words := by
  rw [← mul_one (words _), expressionStatement_mul]
  exact (phrase_begins .assignment).mul _

theorem statement_begins : Begins statementOpeners statement.words := by
  have hkeyword {k : Kind} {L : Words} (hk : k ∈ statementOpeners) :
      Begins statementOpeners (ofKinds [k] * L) :=
    ((Begins.ofKinds [k]).mul L).mono (by simpa using hk)
  have hexpression : Begins statementOpeners (expressionStatement.words * 1) :=
    (expressionStatement_begins.mul 1).mono (by decide)
  rw [← mul_one (words _), statement_mul]
  exact .add (.add (.add (.add (.add (.add hexpression (hkeyword (by decide))) (hkeyword (by decide)))
    (hkeyword (by decide))) (hkeyword (by decide))) (hkeyword (by decide))) (hkeyword (by decide))

/-- The kinds that a declaration begins with. -/
def declarationOpeners : List Kind := .varWord :: .funWord :: statementOpeners

theorem declaration_begins : Begins declarationOpeners declaration.words := by
  rw [← mul_one (words _), declaration_mul]
  refine .add (.add ?_ ?_) ?_
  · exact (statement_begins.mul 1).mono (by decide)
  · exact ((Begins.ofKinds _).mul _).mono (by decide)
  · exact ((Begins.ofKinds _).mul _).mono (by decide)

end Symbol

end Lox.Grammar
