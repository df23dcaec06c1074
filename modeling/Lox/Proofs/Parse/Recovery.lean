import Lox.Proofs.Parse.Isolation

/-!
The recovery after a missing semicolon. Main statement: the token that comes where a semicolon should
be is dropped, also if it begins a statement; what is left after it is parsed as if it stood alone.
-/

set_option autoImplicit false

namespace Lox

open Grammar Parse

/-- After what the semicolon of a statement stands, for the statements that end in one and may stand
outside functions. -/
def Node.beforeSemicolon? : Node → Option Place
  | .print _ => some .value
  | .expression _ => some .expression
  | .var _ _ => some .variableDeclaration
  | _ => none

/-- A statement without its semicolon. -/
inductive Unclosed : List Token → Node → Place → Prop where
  | expression {ts : List Token} {n : Node} (h : Expression ts n) :
      Unclosed ts (.expression n) .expression
  | print {keyword : Token} {ts : List Token} {n : Node} (hk : keyword.kind = .printWord)
      (h : Expression ts n) : Unclosed (keyword :: ts) (.print n) .value
  | bareVar {keyword name : Token} (hk : keyword.kind = .varWord) (hn : name.kind = .identifier) :
      Unclosed [keyword, name] (.var (.token name) .missing) .variableDeclaration
  | var {keyword name equals : Token} {ts : List Token} {n : Node} (hk : keyword.kind = .varWord)
      (hn : name.kind = .identifier) (he : equals.kind = .equal) (h : Expression ts n) :
      Unclosed (keyword :: name :: equals :: ts) (.var (.token name) n) .variableDeclaration

theorem unclosed_of_variable {keyword : Token} {us : List Token} {n : Node}
    (hk : keyword.kind = .varWord) (h : Variable us n) : ∃ ts semicolon,
      keyword :: us = ts ++ [semicolon] ∧ Unclosed ts n .variableDeclaration := by
  cases h with
  | bare hn _ => exact ⟨_, _, rfl, .bareVar hk hn⟩
  | initialized hn he h _ => exact ⟨_, _, rfl, .var hk hn he h⟩

theorem declaration_of_declarations {fn : Bool} {us : List Token} {n : Node}
    (h : Declarations fn us [n]) : Declaration fn us n := by
  cases h with
  | cons h hs =>
    cases hs
    rwa [List.append_nil]

theorem exists_unclosed {fn : Bool} {us : List Token} {n : Node} {place : Place}
    (h : Declaration fn us n) (hp : n.beforeSemicolon? = some place) :
    ∃ ts semicolon, us = ts ++ [semicolon] ∧ Unclosed ts n place := by
  cases h with
  | var hk h =>
    obtain rfl : .variableDeclaration = place := by cases h <;> exact Option.some.inj hp
    exact unclosed_of_variable hk h
  | function => cases hp
  | statement h =>
    cases h with
    | expression h =>
      obtain ⟨h, _⟩ := h
      obtain rfl := Option.some.inj hp
      exact ⟨_, _, rfl, .expression h⟩
    | print hk h _ =>
      obtain rfl := Option.some.inj hp
      exact ⟨_, _, rfl, .print hk h⟩
    | _ => cases hp

namespace Parse

variable {α β : Type} {limit : Nat} {source : Source} {fn : Bool} {ts us rest : List Token}
  {first : Token} {c : Complaint}

/-- Outside all functions some tokens are taken and the next one is complained about, or else the
frames run out. -/
def Misses (limit : Nat) (step : Parse α) (ts : List Token) (c : Complaint) (first : Token)
    (rest : List Token) : Prop :=
  ∀ d, (ts ++ first :: rest).length < limit →
    step ⟨ts ++ first :: rest, d, 0⟩ =
        (.error .syntaxError, ⟨first :: rest, d.push (.at first c), 0⟩) ∨
      ∃ p, step ⟨ts ++ first :: rest, d, 0⟩ = (.error .exhausted, p)

namespace Misses

theorem exhausted (ts : List Token) (c : Complaint) (first : Token) (rest : List Token) :
    Misses limit (throw .exhausted : Parse α) ts c first rest := fun _ _ => .inr ⟨_, rfl⟩

theorem expect {kind : Kind} {f : Token → Parse α} (h : first.kind ≠ kind) :
    Misses limit (Parse.expect source kind c >>= f) [] c first rest := by
  intro d _
  refine .inl ?_
  rw [bind_apply, expect_apply, if_neg (by simpa using h)]
  rfl

/-- What is read before does not matter. -/
theorem bind {x : Parse α} {f : α → Parse β} {a : α}
    (hx : Reads limit false x ts a (us ++ first :: rest)) (hf : Misses limit (f a) us c first rest) :
    Misses limit (x >>= f) (ts ++ us) c first rest := by
  intro d hlt
  rw [List.append_assoc] at hlt ⊢
  rw [bind_apply]
  rcases hx d 0 hlt (by simp) with h | ⟨p, h⟩
  · rw [h]
    exact hf d (Nat.lt_of_le_of_lt (by simp) hlt)
  · exact .inr ⟨p, by rw [h]⟩

theorem bindLast {x : Parse α} {f : α → Parse β} {a : α}
    (hx : Reads limit false x ts a (first :: rest)) (hf : Misses limit (f a) [] c first rest) :
    Misses limit (x >>= f) ts c first rest := by
  have hx' : Reads limit false x ts a ([] ++ first :: rest) := hx
  have h := bind hx' hf
  rwa [List.append_nil] at h

/-- What is looked at stays. -/
theorem peek {t : Token} {f : Token → Parse β} (hf : Misses limit (f t) (t :: ts) c first rest) :
    Misses limit (Parse.peek source >>= f) (t :: ts) c first rest := by
  have hread : Reads limit false (Parse.peek source) [] t (t :: ts ++ first :: rest) :=
    fun _ _ _ _ => .inl rfl
  exact bind hread hf

theorem advance {t : Token} {f : Token → Parse β} (hf : Misses limit (f t) ts c first rest) :
    Misses limit (Parse.advance source >>= f) (t :: ts) c first rest := by
  have hread : Reads limit false (Parse.advance source) [t] t (ts ++ first :: rest) :=
    fun _ _ _ _ => .inl rfl
  exact bind hread hf

theorem accept_some {kinds : List Kind} {t : Token} {f : Option Token → Parse β}
    (ht : t.kind ∈ kinds) (hf : Misses limit (f (some t)) ts c first rest) :
    Misses limit (accept? source kinds >>= f) (t :: ts) c first rest := by
  have hread : Reads limit false (accept? source kinds >>= Pure.pure) [t] (some t)
      (ts ++ first :: rest) := .accept_some ht (.pure _)
  rw [bind_pure] at hread
  exact bind hread hf

theorem accept_none (hl : source.last.isEnd) {kinds : List Kind} (hk : .eof ∉ kinds)
    {f : Option Token → Parse β} (hs : Stops kinds (ts ++ first :: rest))
    (hf : Misses limit (f none) ts c first rest) :
    Misses limit (accept? source kinds >>= f) ts c first rest := by
  have hread : Reads limit false (accept? source kinds >>= Pure.pure) [] none
      (ts ++ first :: rest) := .accept_none hl hk hs (.pure _)
  rw [bind_pure] at hread
  exact bind hread hf

theorem expectThen {kind : Kind} {c' : Complaint} {t : Token} {f : Token → Parse β}
    (ht : t.kind = kind) (hf : Misses limit (f t) ts c first rest) :
    Misses limit (Parse.expect source kind c' >>= f) (t :: ts) c first rest := by
  have hread : Reads limit false (Parse.expect source kind c' >>= Pure.pure) [t] t
      (ts ++ first :: rest) := .expect ht (.pure _)
  rw [bind_pure] at hread
  exact bind hread hf

end Misses

section Rules

variable {frames : Nat} {n : Node} (hl : source.last.isEnd) (hs : first.kind ≠ .semicolon)
  (hf : first.kind ∉ followers)
include hl hs hf

theorem printStatement_misses (h : Expression ts n) :
    Misses source.turns (printStatement source frames) ts (.missing ';' .value) first rest :=
  .bindLast ((expressionsComplete hl frames).expression h (.cons hf)) (.expect hs)

theorem expressionStatement_misses (h : Expression ts n) :
    Misses source.turns (expressionStatement source frames) ts (.missing ';' .expression) first
      rest :=
  .bindLast ((expressionsComplete hl frames).expression h (.cons hf)) (.expect hs)

theorem bareVar_misses {name : Token} (hn : name.kind = .identifier) :
    Misses source.turns (varDeclaration source frames) [name] (.missing ';' .variableDeclaration)
      first rest := by
  have hequal : Stops [.equal] ([] ++ first :: rest) := Stops.mono (.cons hf) (by decide)
  exact .expectThen hn (.accept_none hl (by decide) hequal (.bindLast (.pure _) (.expect hs)))

theorem varDeclaration_misses {name equals : Token} (hn : name.kind = .identifier)
    (he : equals.kind = .equal) (h : Expression ts n) :
    Misses source.turns (varDeclaration source frames) (name :: equals :: ts)
      (.missing ';' .variableDeclaration) first rest := by
  refine .expectThen hn (.accept_some (by simp [he]) ?_)
  exact .bindLast ((expressionsComplete hl frames).expression h (.cons hf)) (.expect hs)

omit hs hf in
/-- A declaration that is no `var` and no `fun` is a statement. -/
theorem bareDeclaration_misses (ht : Stops [.varWord, .funWord] (ts ++ first :: rest))
    (h : Misses source.turns (statement source frames) ts c first rest) :
    Misses source.turns (bareDeclaration source frames) ts c first rest :=
  .accept_none hl (by decide) (ht.mono (by decide))
    (.accept_none hl (by decide) (ht.mono (by decide)) h)

end Rules

end Parse

/-- Where the semicolon of a declaration is missing, the next token is complained about. -/
theorem Unclosed.misses {source : Source} {ts : List Token} {n : Node} {place : Place}
    (h : Unclosed ts n place) (hl : source.last.isEnd) {first : Token}
    (hs : first.kind ≠ .semicolon) (hf : first.kind ∉ followers) (frames : Nat)
    (rest : List Token) :
    Misses source.turns (bareDeclaration source frames) ts (.missing ';' place) first rest := by
  cases h with
  | bareVar hk hn => exact .accept_some (by simp [hk]) (bareVar_misses hl hs hf hn)
  | var hk hn he h => exact .accept_some (by simp [hk]) (varDeclaration_misses hl hs hf hn he h)
  | print hk h =>
    refine bareDeclaration_misses hl (.cons (by simp [hk])) ?_
    cases frames with
    | zero => exact .exhausted _ _ _ _
    | succ frames =>
      refine .peek ?_
      rw [hk]
      exact .advance (printStatement_misses hl hs hf h)
  | expression h =>
    refine bareDeclaration_misses hl (.of_head h.head (by decide)) ?_
    obtain ⟨t, us, rfl, ht⟩ := h.head
    cases frames with
    | zero => exact .exhausted _ _ _ _
    | succ frames =>
      refine .peek ?_
      split
      case h_7 => exact expressionStatement_misses hl hs hf h
      all_goals next hk => rw [hk] at ht; exact absurd ht (by decide)

namespace Parser

/-- The tokens that a parse goes on with when it recovers at the first of some tokens: that one is
dropped, and then all up to the next statement or to the end. -/
def resumed (first : Token) (rest : List Token) : List Token :=
  skip first (ofTokens rest).pending ++ rest.dropWhile (!·.isEnd)

theorem isEnd_eq_false {rest : List Token} {t : Token} (h : t ∈ (ofTokens rest).pending) :
    t.isEnd = false := by
  simpa using List.mem_takeWhile_imp h

theorem pending_append {before : List Token} (hb : ∀ t ∈ before, t.kind ≠ .eof)
    (rest : List Token) : ofTokens (before ++ rest) =
      ⟨before ++ (ofTokens rest).pending, #[], 0⟩ := by
  have hall : ∀ t ∈ before, (!t.isEnd) = true := by simpa [Token.isEnd] using hb
  rw [ofTokens, List.takeWhile_append_of_pos hall]
  rfl

theorem pending_append_cons {before : List Token} {first : Token} (hb : ∀ t ∈ before, t.kind ≠ .eof)
    (hfirst : first.kind ≠ .eof) (rest : List Token) : ofTokens (before ++ first :: rest) =
      ⟨before ++ first :: (ofTokens rest).pending, #[], 0⟩ := by
  have hall : ∀ t ∈ before ++ [first], t.kind ≠ .eof :=
    List.forall_mem_append.2 ⟨hb, by simpa using hfirst⟩
  simpa using pending_append hall rest

theorem exists_dropped (first : Token) (rest : List Token) :
    ∃ dropped, rest = dropped ++ resumed first rest ∧ ∀ t ∈ dropped, t.kind ≠ .eof := by
  obtain ⟨dropped, hdropped⟩ := skip_suffix first (ofTokens rest).pending
  refine ⟨dropped, ?_, fun t ht => ?_⟩
  · rw [resumed, ← List.append_assoc, hdropped]
    exact List.takeWhile_append_dropWhile.symm
  · have hmem : t ∈ (ofTokens rest).pending := hdropped ▸ List.mem_append_left _ ht
    simpa [Token.isEnd] using isEnd_eq_false hmem

theorem ofTokens_resumed (first : Token) (rest : List Token) :
    ofTokens (resumed first rest) = ⟨skip first (ofTokens rest).pending, #[], 0⟩ := by
  have hskip : ∀ t ∈ skip first (ofTokens rest).pending, t.kind ≠ .eof := fun t ht => by
    simpa [Token.isEnd] using isEnd_eq_false ((skip_suffix first _).subset ht)
  have hdrop : (ofTokens (rest.dropWhile (!·.isEnd))).pending = [] := by
    rw [ofTokens, List.takeWhile_eq_nil_iff]
    exact List.dropWhile_get_zero_not _ _
  rw [resumed, pending_append hskip, hdrop, List.append_nil]

end Parser

/-- The nesting of the first declaration is not too deep if that of none is. -/
theorem declaration_ne_exhausted {frames : Nat} {tokens rest : List Token} {first : Token}
    (hq : (Parser.ofTokens tokens).pending = first :: rest)
    (hd : ∀ d ∈ (parse frames tokens).diagnostics, d.complaint ≠ .tooMuchNesting) (q : Parser) :
    declaration (.ofTokens tokens) frames (.ofTokens tokens) ≠ (.error .exhausted, q) := by
  intro he
  have hl := Source.last_isEnd tokens
  have hlength : (Parser.ofTokens tokens).pending.length ≤ tokens.length :=
    (List.takeWhile_sublist _).length_le
  have hturn : programTurn (.ofTokens tokens) frames first (.ofTokens tokens) =
      (none, (q.report (.at first .tooMuchNesting)).synchronize) := by rw [programTurn, he]
  have hrest := programTurn_advances hl frames first (.ofTokens tokens)
  rw [hturn] at hrest
  have hall := programOnto_advances frames hl tokens.length #[] _
    (Nat.lt_succ_of_le (hrest.length_le.trans hlength)) hrest.functionDepth
  have hmem : Diagnostic.at first .tooMuchNesting ∈
      (q.report (.at first .tooMuchNesting)).synchronize.diagnostics.toList := by
    simp [synchronize_diagnostics, Parser.report]
  refine hd (.at first .tooMuchNesting) ?_ rfl
  have hparse : (parse frames tokens).diagnostics = (programOnto (.ofTokens tokens) frames
      (tokens.length + 1) #[] (.ofTokens tokens)).2.diagnostics.toList := rfl
  rw [hparse, programOnto_cons hq, hturn]
  exact hall.diagnostics.subset hmem

/-- A turn without a result leaves the parse to what comes after it. -/
theorem parse_eq_of_turn {frames : Nat} {tokens ts : List Token} {t : Token} {q : Parser}
    (hq : (Parser.ofTokens tokens).pending = t :: ts)
    (hturn : programTurn (.ofTokens tokens) frames t (.ofTokens tokens) = (none, q)) :
    parse frames tokens =
      ⟨(programOnto (.ofTokens tokens) frames tokens.length #[] q).1.toList,
        (programOnto (.ofTokens tokens) frames tokens.length #[] q).2.diagnostics.toList⟩ := by
  have hfirst : programOnto (.ofTokens tokens) frames (tokens.length + 1) #[] (.ofTokens tokens) =
      programOnto (.ofTokens tokens) frames tokens.length #[] q := by
    rw [programOnto_cons hq, hturn, Option.elim_none]
  rw [← hfirst]
  rfl

/-- A parse whose first declaration is abandoned at some token is that complaint, and then the parse
of what the recovery leaves, as if it stood alone. -/
theorem parse_of_raised {frames : Nat} {tokens rest : List Token} {first : Token} {c : Complaint}
    (htokens : ∀ t ∈ tokens, t.kind ≠ .eof) (hfirst : first.kind ≠ .eof)
    (hb : bareDeclaration (.ofTokens (tokens ++ first :: rest)) frames
      (.ofTokens (tokens ++ first :: rest)) =
        (.error .syntaxError, ⟨first :: (Parser.ofTokens rest).pending, #[.at first c], 0⟩)) :
    parse (frames + 1) (tokens ++ first :: rest) =
      ⟨(parse (frames + 1) (Parser.resumed first rest)).statements,
        .at first c :: (parse (frames + 1) (Parser.resumed first rest)).diagnostics⟩ := by
  obtain ⟨dropped, hrest, hdropped⟩ := Parser.exists_dropped first rest
  have hsplit : tokens ++ first :: rest =
      tokens ++ first :: dropped ++ Parser.resumed first rest := by
    rw [List.append_assoc, List.cons_append, ← hrest]
  have hbefore : ∀ t ∈ tokens ++ first :: dropped, t.kind ≠ .eof :=
    List.forall_mem_append.2 ⟨htokens, List.forall_mem_cons.2 ⟨hfirst, hdropped⟩⟩
  have hlength : (Parser.resumed first rest).length < (tokens ++ first :: rest).length := by
    rw [hsplit, List.length_append, List.length_append, List.length_cons]
    omega
  have hlast : (Parser.ofTokens (Parser.resumed first rest)).pending ≠ [] →
      Source.lastOf (tokens ++ first :: rest) = Source.lastOf (Parser.resumed first rest) := by
    intro hne
    rw [hsplit]
    refine lastOf_append hbefore fun hnil => hne ?_
    rw [hnil]
    rfl
  obtain ⟨hstatements, hdiagnostics⟩ := programOnto_left (.ofTokens (tokens ++ first :: rest))
    (frames + 1) #[.at first c] hlast (Nat.lt_succ_of_lt hlength) hlength
  rw [Parser.ofTokens_resumed] at hstatements hdiagnostics
  obtain ⟨t, ts, hcons⟩ : ∃ t ts, (Parser.ofTokens (tokens ++ first :: rest)).pending = t :: ts :=
    List.exists_cons_of_ne_nil (by simp [Parser.pending_append_cons htokens hfirst])
  rw [parse_eq_of_turn hcons (programTurn_of_raised hb t)]
  exact congrArg₂ Parsed.mk hstatements hdiagnostics

/-- What becomes a statement with a semicolon at its end is one without it. -/
theorem unclosed_of_parse {frames : Nat} {tokens : List Token} {semicolon : Token} {n : Node}
    {place : Place} (hs : semicolon.kind = .semicolon) (htokens : ∀ t ∈ tokens, t.kind ≠ .eof)
    (hp : n.beforeSemicolon? = some place) (h : parse frames (tokens ++ [semicolon]) = ⟨[n], []⟩) :
    Unclosed tokens n place := by
  have hall : ∀ t ∈ tokens ++ [semicolon], t.kind ≠ .eof :=
    List.forall_mem_append.2 ⟨htokens, by simp [hs]⟩
  have hpending := congrArg Parser.pending (Parser.ofTokens_eq hall)
  have hdeclarations := parse_declarations (congrArg Parsed.diagnostics h)
  rw [h, show List.takeWhile _ _ = _ from hpending] at hdeclarations
  obtain ⟨ts, last, hts, hunclosed⟩ :=
    exists_unclosed (declaration_of_declarations hdeclarations) hp
  obtain ⟨rfl, -⟩ := List.append_inj' hts rfl
  exact hunclosed

/-- Where the semicolon after a `print`, an expression or a variable is missing before the first token
of a statement, that token is complained about and dropped. The statement that it begins is lost, and
what is left after it is parsed as if it stood alone. -/
theorem missing_semicolon_drops_next {frames : Nat} {tokens rest : List Token}
    {semicolon first : Token} {n : Node} {place : Place} (hs : semicolon.kind = .semicolon)
    (htokens : ∀ t ∈ tokens, t.kind ≠ .eof) (hp : n.beforeSemicolon? = some place)
    (h : parse frames (tokens ++ [semicolon]) = ⟨[n], []⟩) (hf : first.kind.startsStatement)
    (hd : ∀ d ∈ (parse frames (tokens ++ first :: rest)).diagnostics,
      d.complaint ≠ .tooMuchNesting) :
    parse frames (tokens ++ first :: rest) =
      ⟨(parse frames (Parser.resumed first rest)).statements,
        .at first (.missing ';' place) ::
          (parse frames (Parser.resumed first rest)).diagnostics⟩ := by
  have hfirst : first.kind ≠ .semicolon ∧ first.kind ≠ .eof ∧ first.kind ∉ followers := by
    cases hk : first.kind <;> simp_all [Kind.startsStatement, followers]
  obtain ⟨hsemicolon, hend, hfollowers⟩ := hfirst
  have hpending : Parser.ofTokens (tokens ++ first :: rest) =
      ⟨tokens ++ first :: (Parser.ofTokens rest).pending, #[], 0⟩ :=
    Parser.pending_append_cons htokens hend rest
  have hlength : (tokens ++ first :: (Parser.ofTokens rest).pending).length <
      (Source.ofTokens (tokens ++ first :: rest)).turns := by
    have hle : (Parser.ofTokens rest).pending.length ≤ rest.length :=
      (List.takeWhile_sublist _).length_le
    simp only [Source.ofTokens, List.length_append, List.length_cons]
    omega
  obtain ⟨t, ts, hcons⟩ : ∃ t ts, tokens ++ first :: (Parser.ofTokens rest).pending = t :: ts :=
    List.exists_cons_of_ne_nil (by simp)
  have hne := declaration_ne_exhausted (by rw [hpending, hcons]) hd
  cases frames with
  | zero => exact absurd rfl (hne _)
  | succ frames =>
    rcases (unclosed_of_parse hs htokens hp h).misses (Source.last_isEnd _) hsemicolon hfollowers
      frames (Parser.ofTokens rest).pending #[] hlength with hb | ⟨q, hb⟩
    · exact parse_of_raised htokens hend (by rw [hpending, hb]; rfl)
    · exact absurd (by rw [declaration_eq, recover, hpending, hb]) (hne q)

/-- A `print` without its semicolon, another one, and a variable. -/
def unclosedTokens : List Token := [.printWord, .nilWord].map fun k => ⟨k, .null, .null, 1⟩

def printTrueTokens : List Token :=
  [.printWord, .trueWord, .semicolon].map fun k => ⟨k, .null, .null, 2⟩

def variableTokens : List Token :=
  [.varWord, .identifier, .semicolon].map fun k => ⟨k, .null, .null, 3⟩

theorem missing_semicolon_drops_next_print :
    parse 20 (unclosedTokens ++ [⟨.semicolon, .null, .null, 1⟩]) =
      ⟨[.print (.literal (.token ⟨.nilWord, .null, .null, 1⟩))], []⟩ ∧
    parse 20 (unclosedTokens ++ (printTrueTokens ++ variableTokens)) =
      ⟨[.var (.token ⟨.identifier, .null, .null, 3⟩) .missing],
        [.at ⟨.printWord, .null, .null, 2⟩ (.missing ';' .value)]⟩ := by
  have hclosed : parse 20 (unclosedTokens ++ [⟨.semicolon, .null, .null, 1⟩]) =
      ⟨[.print (.literal (.token ⟨.nilWord, .null, .null, 1⟩))], []⟩ := rfl
  have hd : ∀ d ∈ (parse 20 (unclosedTokens ++ (printTrueTokens ++ variableTokens))).diagnostics,
      d.complaint ≠ .tooMuchNesting := by decide +kernel
  refine ⟨hclosed, ?_⟩
  exact (missing_semicolon_drops_next rfl (by decide) rfl hclosed rfl hd).trans rfl

/-- The `print` alone is a statement, behind the unclosed one it is none. -/
theorem missing_semicolon_loses_print :
    (parse 20 (unclosedTokens ++ [⟨.semicolon, .null, .null, 1⟩])).diagnostics = [] ∧
    (parse 20 (unclosedTokens ++ [⟨.semicolon, .null, .null, 1⟩])).statements =
      [.print (.literal (.token ⟨.nilWord, .null, .null, 1⟩))] ∧
    ¬ parse 20 (unclosedTokens ++ printTrueTokens) = ⟨(parse 20 printTrueTokens).statements,
      .at ⟨.printWord, .null, .null, 2⟩ (.missing ';' .value) ::
        (parse 20 printTrueTokens).diagnostics⟩ := by
  refine ⟨rfl, rfl, fun h => ?_⟩
  have hlength := congrArg (List.length ∘ Parsed.statements) h
  exact absurd hlength (by decide)

end Lox
