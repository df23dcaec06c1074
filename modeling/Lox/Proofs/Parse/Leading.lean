import Lox.Proofs.Node.Leading
import Lox.Proofs.Parse.Progress
import Lox.Proofs.Run.Lines

/-!
The line of a statement's leftmost token. Main statement: in a program that was parsed it is the
earliest line of the statement, but for one token at most: a loop whose condition is left out has the
word for it on the line of its keyword, which its initializer may begin after.
-/

set_option autoImplicit false

namespace Lox

open Grammar

/-- Tokens none of which is on an earlier line than the first. -/
def Led (us : List Token) : Prop := ∀ t ∈ us.head?, ∀ u ∈ us, t.line ≤ u.line

/-- Tokens on lines that the tokens of a segment are on. -/
def OnLines (ts us : List Token) : Prop := ∀ u ∈ us, ∃ t ∈ ts, u.line = t.line

variable {ts us vs ws : List Token}

theorem InOrder.left (h : InOrder (ts ++ us)) : InOrder ts := (List.pairwise_append.1 h).1

theorem InOrder.right (h : InOrder (ts ++ us)) : InOrder us := (List.pairwise_append.1 h).2.1

theorem InOrder.tail {t : Token} (h : InOrder (t :: us)) : InOrder us := (List.pairwise_cons.1 h).2

theorem OnLines.mono (h : OnLines ts us) (hs : ∀ t ∈ ts, t ∈ vs) : OnLines vs us := fun u hu => by
  obtain ⟨t, ht, hl⟩ := h u hu
  exact ⟨t, hs t ht, hl⟩

theorem OnLines.behind {t : Token} (h : OnLines ts us) : OnLines (t :: ts) us :=
  h.mono fun _ => List.mem_cons_of_mem t

theorem OnLines.before (h : OnLines ts us) (vs : List Token) : OnLines (ts ++ vs) us :=
  h.mono fun _ => List.mem_append_left vs

theorem onLines_append : OnLines ts (us ++ vs) ↔ OnLines ts us ∧ OnLines ts vs :=
  List.forall_mem_append

theorem onLines_cons {t : Token} : OnLines ts (t :: us) ↔ (∃ u ∈ ts, t.line = u.line) ∧ OnLines ts us :=
  List.forall_mem_cons

theorem OnLines.cons (h : OnLines ts us) (t : Token) : OnLines (t :: ts) (t :: us) :=
  onLines_cons.2 ⟨⟨t, List.mem_cons_self, rfl⟩, h.behind⟩

theorem onLines_self (ts : List Token) : OnLines ts ts := fun t ht => ⟨t, ht, rfl⟩

/-- What is on later lines than the segment of the first tokens changes nothing. -/
theorem Led.append (h : Led us) (hne : us ≠ []) (ho : InOrder (ts ++ vs)) (hu : OnLines ts us)
    (hw : OnLines vs ws) : Led (us ++ ws) := by
  obtain ⟨first, others, rfl⟩ := List.exists_cons_of_ne_nil hne
  rintro t ht
  obtain rfl : first = t := by simpa using ht
  refine List.forall_mem_append.2 ⟨h first (by simp), fun w hmem => ?_⟩
  obtain ⟨t, htmem, hline⟩ := hu first (by simp)
  obtain ⟨v, hvmem, hwline⟩ := hw w hmem
  rw [hline, hwline]
  exact (List.pairwise_append.1 ho).2.2 t htmem v hvmem

theorem led_singleton (t : Token) : Led [t] := by simp [Led]

theorem led_cons {t u : Token} (ht : t.line = u.line) (ho : InOrder (u :: vs)) (hw : OnLines vs ws) :
    Led (t :: ws) := by
  have hfirst : OnLines [u] [t] := by simp [OnLines, ht]
  have hsegment : InOrder ([u] ++ vs) := ho
  exact (led_singleton t).append (by simp) hsegment hfirst hw

/-- The tokens that are on a line of a segment are a sort of tokens. -/
theorem tokenSort_onLine (ts : List Token) : TokenSort fun u => ∃ t ∈ ts, u.line = t.line where
  whenLeftOut h := h

theorem Node.Over.onLines {n : Node} (h : n.Over fun u => ∃ t ∈ ts, u.line = t.line) :
    OnLines ts n.tokens := fun _ hu => h.of_has (Node.mem_tokens.1 hu)

theorem Node.onLines_allTokens {ns : List Node}
    (h : ∀ n ∈ ns, n.IsStatement fun u => ∃ t ∈ ts, u.line = t.line) :
    OnLines ts (Node.allTokens ns) := fun u hu => by
  obtain ⟨n, hn, hu⟩ := Node.mem_allTokens.1 hu
  exact (h n hn).over.onLines u hu

/-- The word for the condition that is left out of a loop. -/
def Token.leftOut (keyword : Token) : Token := ⟨.trueWord, .text "true", .null, keyword.line⟩

namespace Grammar

theorem Rank.tokens_join (rank : Rank) (l : Node) (op : Token) (r : Node) :
    (rank.join l op r).tokens = l.tokens ++ op :: r.tokens := by
  cases rank <;> simp [join, Node.tokens]

theorem Phrase.onLines {rank : Rank} {n : Node} (h : Phrase rank ts n) : OnLines ts n.tokens :=
  (h.isExpression fun t ht => ⟨t, ht, rfl⟩).over.onLines

theorem Phrase.tokens_ne_nil {rank : Rank} {n : Node} (h : Phrase rank ts n) : n.tokens ≠ [] := by
  have hexpression : n.IsExpression fun _ => True := h.isExpression fun _ _ => trivial
  obtain ⟨t, ht⟩ := hexpression.exists_has
  exact List.ne_nil_of_mem (Node.mem_tokens.2 ht)

theorem Arguments.onLines {ns : List Node} (h : Arguments ts ns) :
    OnLines ts (Node.allTokens ns) := fun u hu => by
  obtain ⟨n, hn, hu⟩ := Node.mem_allTokens.1 hu
  exact (h.isExpression (fun t ht => ⟨t, ht, rfl⟩) n hn).over.onLines u hu

/-- An expression has a token, and it is on a line before what comes after. -/
theorem Phrase.led_append {rank : Rank} {n : Node} (h : Phrase rank ts n) (hn : Led n.tokens)
    (ho : InOrder (ts ++ vs)) (hw : OnLines vs ws) : Led (n.tokens ++ ws) :=
  hn.append h.tokens_ne_nil ho h.onLines hw

theorem Phrase.led_call {callee : Node} {ns : List Node} {closing : Token}
    (h : Phrase .call ts callee) (hn : Led callee.tokens) (ho : InOrder (ts ++ vs))
    (hw : OnLines vs (closing :: Node.allTokens ns)) :
    Led (Node.call callee (.token closing) ns).tokens := by
  simpa [Node.tokens] using h.led_append hn ho hw

theorem Phrase.led {rank : Rank} {ts : List Token} {n : Node} (ho : InOrder ts) :
    Phrase rank ts n → Led n.tokens
  | .tighter _ h => h.led ho
  | .assign _ _ h => led_cons rfl ho h.onLines.behind
  | .joined _ _ hl hu => by
    rw [Rank.tokens_join]
    exact hl.led_append (hl.led ho.left) ho (hu.onLines.cons _)
  | .unary _ h => led_cons rfl ho h.onLines
  | .bareCall h _ _ => h.led_call (h.led ho.left) ho ((onLines_self _).behind)
  | .call h _ ha _ _ => by
    rw [List.append_assoc] at ho
    refine h.led_call (h.led ho.left) ho (onLines_cons.2 ⟨by simp, ?_⟩)
    exact (ha.onLines.before _).behind
  | .literal _ => led_singleton _
  | .«variable» _ => led_singleton _
  | .grouping _ h _ => by
    have hled := h.led ho.left.tail
    exact hled

theorem Variable.led {n : Node} (ho : InOrder ts) (h : Variable ts n) : Led n.tokens := by
  cases h with
  | bare _ _ => exact led_singleton _
  | initialized _ _ h _ => exact led_cons rfl ho (h.onLines.before _).behind

end Grammar

/-- Statements that begin with a loop which has an initializer and whose condition is left out. -/
inductive BeginWithLoop (keyword : Token) (initializer : Node) : List Node → Prop where
  | loop {turn : Node} {ns : List Node} : BeginWithLoop keyword initializer
      (.block [initializer, .whileDo (.literal (.token keyword.leftOut)) turn] :: ns)
  | inside {ns ms : List Node} (h : BeginWithLoop keyword initializer ns) :
      BeginWithLoop keyword initializer (.block ns :: ms)
  | later {n : Node} {ns : List Node} (hn : n.tokens = [])
      (h : BeginWithLoop keyword initializer ns) : BeginWithLoop keyword initializer (n :: ns)

theorem BeginWithLoop.append {keyword : Token} {initializer : Node} {ns : List Node}
    (h : BeginWithLoop keyword initializer ns) (ms : List Node) :
    BeginWithLoop keyword initializer (ns ++ ms) := by
  induction h with
  | loop => exact .loop
  | inside h => exact .inside h
  | later hn _ ih => exact .later hn ih

/-- The first token of some statements is on the earliest line, or only the word for a condition that
is left out can be on an earlier one, the first token then being one of the loop's initializer. -/
inductive Leads (ts : List Token) (ns : List Node) : Prop where
  | plainly (h : Led (Node.allTokens ns))
  | butOne {keyword : Token} {initializer : Node} {rest : List Token} (hk : keyword ∈ ts)
      (hf : keyword.kind = .forWord) (hb : BeginWithLoop keyword initializer ns)
      (hi : initializer.tokens ≠ [])
      (hs : Node.allTokens ns = initializer.tokens ++ keyword.leftOut :: rest)
      (h : Led (initializer.tokens ++ rest))

namespace Leads

theorem of_led {n : Node} (h : Led n.tokens) : Leads ts [n] := .plainly (by simpa using h)

theorem mono {ns : List Node} (h : Leads ts ns) (hs : ∀ t ∈ ts, t ∈ us) : Leads us ns := by
  cases h with
  | plainly h => exact .plainly h
  | butOne hk hf hb hi hs' h => exact .butOne (hs _ hk) hf hb hi hs' h

theorem block {ns : List Node} (h : Leads ts ns) : Leads ts [.block ns] := by
  have htokens : Node.allTokens [.block ns] = Node.allTokens ns := by simp [Node.tokens]
  cases h with
  | plainly h => exact .plainly (by rwa [htokens])
  | butOne hk hf hb hi hs h => exact .butOne hk hf (.inside hb) hi (htokens.trans hs) h

/-- A statement with a token leads whatever comes after it; after one without, the others do. -/
theorem cons {n : Node} {ns : List Node} (ho : InOrder (ts ++ us)) (h : Leads ts [n])
    (hs : Leads us ns) (hn : OnLines ts n.tokens) (hns : OnLines us (Node.allTokens ns)) :
    Leads (ts ++ us) (n :: ns) := by
  by_cases hnil : n.tokens = []
  · have htokens : Node.allTokens (n :: ns) = Node.allTokens ns := by simp [hnil]
    cases hs with
    | plainly h => exact .plainly (by rwa [htokens])
    | butOne hk hf hb hi hs h =>
      exact .butOne (List.mem_append_right _ hk) hf (.later hnil hb) hi (htokens.trans hs) h
  · cases h with
    | plainly h => exact .plainly ((by simpa using h : Led n.tokens).append hnil ho hn hns)
    | @butOne keyword initializer rest hk hf hb hi hs h =>
      have htokens : n.tokens = initializer.tokens ++ keyword.leftOut :: rest := by simpa using hs
      rw [htokens, onLines_append, onLines_cons] at hn
      refine .butOne (List.mem_append_left _ hk) hf (hb.append ns) hi (by simp [htokens]; rfl) ?_
      rw [← List.append_assoc]
      exact h.append (by simp [hi]) ho (onLines_append.2 ⟨hn.1, hn.2.2⟩) hns

end Leads

namespace Grammar

theorem Variable.tokens_ne_nil {n : Node} (h : Variable ts n) : n.tokens ≠ [] := by
  cases h <;> simp [Node.tokens]

theorem Initializer.led {ns : List Node} (ho : InOrder ts) (h : Initializer ts ns) :
    ns = [] ∨ ∃ n, ns = [n] ∧ n.tokens ≠ [] ∧ Led n.tokens := by
  cases h with
  | none _ => exact .inl rfl
  | @var keyword _ _ _ h =>
    exact .inr ⟨_, rfl, h.tokens_ne_nil, h.led (ho.tail)⟩
  | expression h =>
    obtain ⟨h, _⟩ := h
    have hled := h.led ho.left
    exact .inr ⟨_, rfl, h.tokens_ne_nil, hled⟩

theorem Initializer.onLines {ns : List Node} (h : Initializer ts ns) :
    OnLines ts (Node.allTokens ns) :=
  Node.onLines_allTokens (h.isStatement (onLines_self ts))

theorem Increment.onLines {ns : List Node} (h : Increment ts ns) :
    OnLines ts (Node.allTokens ns) :=
  Node.onLines_allTokens (h.isStatement (onLines_self ts))

theorem Parameters.onLines {ns : List Node} (h : Parameters ts ns) :
    OnLines ts (Node.allTokens ns) := fun u hu => by
  obtain ⟨n, hn, hu⟩ := Node.mem_allTokens.1 hu
  exact (h.isName (onLines_self ts) n hn).over.onLines u hu

theorem Statement.onLines {fn dangling : Bool} {n : Node} (h : Statement fn dangling ts n) :
    OnLines ts n.tokens :=
  (h.isStatement (tokenSort_onLine ts) (onLines_self ts)).over.onLines

theorem Declaration.onLines {fn : Bool} {n : Node} (h : Declaration fn ts n) :
    OnLines ts n.tokens :=
  (h.isStatement (tokenSort_onLine ts) (onLines_self ts)).over.onLines

theorem Declarations.onLines {fn : Bool} {ns : List Node} (h : Declarations fn ts ns) :
    OnLines ts (Node.allTokens ns) :=
  Node.onLines_allTokens (h.isStatement (tokenSort_onLine ts) (onLines_self ts))

/-- Only the word for a condition that is left out is put after an initializer without a place there
of its own. -/
theorem forLoop_leads {fn dangling : Bool} {keyword opening semicolon closing : Token}
    {ts us vs ws : List Token} {before after : List Node} {c n : Node}
    (hk : keyword.kind = .forWord) (hi : Initializer ts before) (hd : Condition keyword us c)
    (ha : Increment vs after) (hn : Statement fn dangling ws n)
    (ho : InOrder (keyword :: opening :: ts ++ us ++ semicolon :: vs ++ closing :: ws)) :
    Leads (keyword :: opening :: ts ++ us ++ semicolon :: vs ++ closing :: ws)
      [.block (before ++ [.whileDo c (.block (n :: after))])] := by
  rw [List.append_assoc, List.append_assoc] at ho
  have hclauses : InOrder (ts ++ (us ++ (semicolon :: vs ++ closing :: ws))) :=
    ho.tail.tail
  have hbody : OnLines (semicolon :: vs ++ closing :: ws) (n.tokens ++ Node.allTokens after) :=
    onLines_append.2 ⟨hn.onLines.mono (by simp_all), ha.onLines.mono (by simp_all)⟩
  have htokens : Node.allTokens [.block (before ++ [.whileDo c (.block (n :: after))])] =
      Node.allTokens before ++ (c.tokens ++ (n.tokens ++ Node.allTokens after)) := by
    simp [Node.tokens]
  have hlines := hi.onLines
  obtain rfl | ⟨i, rfl, hne, hled⟩ := hi.led hclauses.left
  · refine .plainly ?_
    rw [htokens, Node.allTokens_nil, List.nil_append]
    cases hd with
    | none => exact led_cons (u := keyword) rfl ho (hbody.mono (by simp_all))
    | some h => exact h.led_append (h.led hclauses.right.left) hclauses.right hbody
  · have hi : Node.allTokens [i] = i.tokens := by simp
    rw [hi] at hlines htokens
    cases hd with
    | none =>
      exact .butOne (by simp) hk (.loop) hne htokens (hled.append hne hclauses hlines hbody)
    | some h =>
      refine .plainly ?_
      rw [htokens]
      refine hled.append hne hclauses hlines (onLines_append.2 ⟨?_, ?_⟩)
      · exact h.onLines.mono fun _ => List.mem_append_left _
      · exact hbody.mono fun _ => List.mem_append_right _

mutual

theorem Statement.leads {fn dangling : Bool} {ts : List Token} {n : Node} (ho : InOrder ts) :
    Statement fn dangling ts n → Leads ts [n]
  | .expression h => by
    obtain ⟨h, _⟩ := h
    have hled := h.led ho.left
    exact .of_led hled
  | @Statement.print _ keyword _ _ _ _ h _ =>
    have hled := h.led (ho.left.tail)
    .of_led hled
  | .bareReturn _ _ => .of_led (led_singleton _)
  | .return _ h _ => .of_led (led_cons rfl ho (h.onLines.before _))
  | @Statement.block _ opening _ _ _ _ h _ =>
    (h.leads (ho.left.tail)).block.mono (by simp_all)
  | @Statement.ifThen _ _ keyword opening closing ts us c n _ _ h _ hn => by
    have hclauses : InOrder (ts ++ closing :: us) := ho.tail.tail
    have hled := h.led_append (h.led hclauses.left) hclauses hn.onLines.behind
    exact .of_led (by simpa [Node.tokens] using hled)
  | @Statement.ifElse _ _ keyword opening closing other ts us vs c n e _ _ h _ hn _ hm => by
    rw [List.append_assoc] at ho
    have hclauses : InOrder (ts ++ (closing :: us ++ other :: vs)) :=
      ho.tail.tail
    have hbranches : OnLines (closing :: us ++ other :: vs) (n.tokens ++ e.tokens) :=
      onLines_append.2 ⟨hn.onLines.mono (by simp_all), hm.onLines.mono (by simp_all)⟩
    have hled := h.led_append (h.led hclauses.left) hclauses hbranches
    exact .of_led (by simpa [Node.tokens] using hled)
  | @Statement.whileDo _ _ keyword opening closing ts us c n _ _ h _ hn => by
    have hclauses : InOrder (ts ++ closing :: us) := ho.tail.tail
    exact .of_led (h.led_append (h.led hclauses.left) hclauses hn.onLines.behind)
  | .forLoop hk _ hi hd _ ha _ hn => forLoop_leads hk hi hd ha hn ho

theorem Declaration.leads {fn : Bool} {ts : List Token} {n : Node} (ho : InOrder ts) :
    Declaration fn ts n → Leads ts [n]
  | @Declaration.var _ keyword _ _ _ h => .of_led (h.led (ho.tail))
  | @Declaration.function _ keyword name opening closing brace ending ts us params body _ hn _ hp _ _
      h _ => by
    have hrest : OnLines (opening :: ts ++ closing :: brace :: us ++ [ending])
        (Node.allTokens params ++ Node.allTokens body) :=
      onLines_append.2 ⟨hp.onLines.mono (by simp_all), h.onLines.mono (by simp_all)⟩
    have hled := led_cons (t := name) rfl ho.tail hrest
    exact .of_led (by simpa [Node.tokens] using hled)
  | .statement h => h.leads ho

theorem Declarations.leads {fn : Bool} {ts : List Token} {ns : List Node} (ho : InOrder ts) :
    Declarations fn ts ns → Leads ts ns
  | .nil => .plainly (by simp [Led])
  | .cons h hs => .cons ho (h.leads ho.left) (hs.leads ho.right) h.onLines hs.onLines

end

theorem Declarations.exists_segment {fn : Bool} {ts : List Token} {ns : List Node} {n : Node}
    (hn : n ∈ ns) : Declarations fn ts ns → ∃ us, us <:+: ts ∧ Declaration fn us n
  | .nil => nomatch hn
  | .cons h hs => by
    obtain rfl | hn := List.mem_cons.1 hn
    · exact ⟨_, (List.prefix_append _ _).isInfix, h⟩
    · obtain ⟨us, hus, hu⟩ := hs.exists_segment hn
      exact ⟨us, hus.trans (List.suffix_append _ _).isInfix, hu⟩

end Grammar

/-- Each statement of a program leads by its first token, wherever it stands. -/
theorem parse_leads {frames : Nat} {tokens : List Token} (ho : InOrder tokens)
    (hd : (parse frames tokens).diagnostics = []) :
    ∀ n ∈ (parse frames tokens).statements, Leads tokens [n] := by
  intro n hn
  obtain ⟨us, hus, h⟩ := (parse_declarations hd).exists_segment hn
  have hsub : us.Sublist tokens := hus.sublist.trans (List.takeWhile_sublist _)
  exact (h.leads (ho.sublist hsub)).mono fun t ht => hsub.subset ht

theorem Leads.line {n : Node} (h : Leads ts [n]) {t : Token} (ht : n.leadingToken = some t) :
    (∀ u ∈ n.tokens, t.line ≤ u.line) ∨
    ∃ keyword ∈ ts, keyword.kind = .forWord ∧ ∃ initializer rest,
      BeginWithLoop keyword initializer [n] ∧ t ∈ initializer.tokens ∧
      n.tokens = initializer.tokens ++ keyword.leftOut :: rest ∧
      ∀ u ∈ initializer.tokens ++ rest, t.line ≤ u.line := by
  rw [Node.leadingToken_eq] at ht
  have hall : Node.allTokens [n] = n.tokens := by simp
  cases h with
  | plainly h => exact .inl (hall ▸ h t (hall ▸ ht))
  | @butOne keyword initializer rest hk hf hb hi hs h =>
    rw [hall] at hs
    rw [hs, List.head?_append_of_ne_nil _ hi] at ht
    refine .inr ⟨keyword, hk, hf, initializer, rest, hb, List.mem_of_head? ht, hs, h t ?_⟩
    rwa [List.head?_append_of_ne_nil _ hi]

/-- For every tree the walk ends at the first of its tokens in the order of the fields, and at none
just if there are none. In a program that is parsed without a report, that token is on the earliest
line of its statement, save for one token at most: where it belongs to the initializer of a loop whose
condition is left out, the word for the condition is on the line of the loop's keyword. -/
theorem leadingToken_leftmost :
    (∀ n : Node,
      (∃ least, ∀ turns, least ≤ turns → Node.walk turns [.one n] = some n.leadingToken) ∧
      n.leadingToken = n.tokens.head? ∧ (n.leadingToken = none ↔ n.tokens = [])) ∧
    ∀ (frames : Nat) (text : String), (parse frames (scan text).tokens).diagnostics = [] →
      ∀ n ∈ (parse frames (scan text).tokens).statements, ∀ t, n.leadingToken = some t →
        (∀ u ∈ n.tokens, t.line ≤ u.line) ∨
        ∃ keyword ∈ (scan text).tokens, keyword.kind = .forWord ∧ ∃ initializer rest,
          BeginWithLoop keyword initializer [n] ∧ t ∈ initializer.tokens ∧
          n.tokens = initializer.tokens ++ keyword.leftOut :: rest ∧
          ∀ u ∈ initializer.tokens ++ rest, t.line ≤ u.line := by
  refine ⟨fun n => ⟨n.walk_leadingToken, n.leadingToken_eq, n.leadingToken_eq_none_iff⟩, ?_⟩
  intro frames text hd n hn t ht
  exact (parse_leads (inOrder_scan text) hd n hn).line ht

/-- A loop over four lines, whose increment comes before its body. -/
def countingLoop : String := "for (var i = a;\n  i < b;\n  i = i + c)\n  print i;"

theorem leadingToken_leftmost_countingLoop :
    (parse 40 (scan countingLoop).tokens).diagnostics = [] ∧
    ∃ n ∈ (parse 40 (scan countingLoop).tokens).statements, ∃ t, n.leadingToken = some t ∧
      n.tokens.map (·.line) = [1, 1, 2, 2, 2, 4, 3, 3, 3, 3] ∧ ∀ u ∈ n.tokens, t.line ≤ u.line := by
  have hd : (parse 40 (scan countingLoop).tokens).diagnostics = [] := by
    rw [← List.length_eq_zero_iff]
    decide +kernel
  have hlines : (parse 40 (scan countingLoop).tokens).statements.map (·.tokens.map (·.line)) =
      [[1, 1, 2, 2, 2, 4, 3, 3, 3, 3]] := by decide +kernel
  have hkinds : ∀ n ∈ (parse 40 (scan countingLoop).tokens).statements, ∀ u ∈ n.tokens,
      u.kind ≠ .trueWord := by decide +kernel
  obtain ⟨n, hstatements, hn⟩ := List.map_eq_singleton_iff.1 hlines
  have hmem : n ∈ (parse 40 (scan countingLoop).tokens).statements := by simp [hstatements]
  obtain ⟨t, ht⟩ : ∃ t, n.leadingToken = some t :=
    Option.ne_none_iff_exists'.1 fun hnone => by
      rw [n.leadingToken_eq_none_iff.1 hnone] at hn
      cases hn
  refine ⟨hd, n, hmem, t, ht, hn, ?_⟩
  obtain h | ⟨keyword, -, -, initializer, rest, -, -, htokens, -⟩ :=
    leadingToken_leftmost.2 40 countingLoop hd n hmem t ht
  · exact h
  · exact absurd rfl (hkinds n hmem keyword.leftOut (by simp [htokens]))

/-- A loop whose initializer is on the line after its keyword, and which has no condition. -/
def lateInitializer : String := "for (\nvar i;;) print i;"

theorem leadingToken_late :
    (parse 40 (scan lateInitializer).tokens).diagnostics = [] ∧
    ¬ ∀ n ∈ (parse 40 (scan lateInitializer).tokens).statements, ∀ t, n.leadingToken = some t →
      ∀ u ∈ n.tokens, t.line ≤ u.line := by
  have hd : (parse 40 (scan lateInitializer).tokens).diagnostics = [] := by
    rw [← List.length_eq_zero_iff]
    decide +kernel
  have hlines : (parse 40 (scan lateInitializer).tokens).statements.map (·.tokens.map (·.line)) =
      [[2, 1, 2]] := by decide +kernel
  refine ⟨hd, fun h => ?_⟩
  obtain ⟨n, hstatements, hn⟩ := List.map_eq_singleton_iff.1 hlines
  obtain ⟨name, others, htokens, hname, hothers⟩ := List.map_eq_cons_iff.1 hn
  obtain ⟨word, _, rfl, hword, -⟩ := List.map_eq_cons_iff.1 hothers
  have hle : name.line ≤ word.line := h n (by simp [hstatements]) name
    (by rw [Node.leadingToken_eq, htokens, List.head?_cons]) word (by simp [htokens])
  omega

end Lox
