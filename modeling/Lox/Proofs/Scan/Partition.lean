import Mathlib.Data.List.TakeWhile
import Lox.Proofs.Decimal.Reading
import Lox.Proofs.Scan.Stacks

/-!
The lexical grammar: which characters of a text are tokens, comments and gaps, which are mistakes, and on
which lines. Main statement: the scan of a text is the one reading that the grammar has of it, up to a
quote that is never closed or to the end.
-/

set_option autoImplicit false

namespace Lox

namespace Lexical

/-- The characters between tokens. -/
def gaps : List Char := [' ', '\t', '\r', '\n']

/-- The marks that tokens and comments are made of or begin with. -/
def marks : List Char :=
  ['(', ')', '{', '}', ',', '.', '-', '+', ';', '*', '!', '=', '<', '>', '/', '"']

/-- All that there is of a class of characters before what follows. -/
structure Run (p : Char → Bool) (cs after : List Char) : Prop where
  all : ∀ c ∈ cs, p c = true
  ends : ∀ c ∈ after.head?, p c = false

/-- The tokens: kind, literal and lexeme, and what may follow the lexeme. -/
inductive Lexeme : Kind → Json → List Char → List Char → Prop where
  | single {c : Char} {kind : Kind} {after : List Char} (h : Piece.single? c = some kind) :
      Lexeme kind .null [c] after
  | joined {c : Char} {alone joined : Kind} {after : List Char}
      (h : Piece.joining? c = some (alone, joined)) : Lexeme joined .null [c, '='] after
  | alone {c : Char} {alone joined : Kind} {after : List Char}
      (h : Piece.joining? c = some (alone, joined)) (hn : after.head? ≠ some '=') :
      Lexeme alone .null [c] after
  | slash {after : List Char} (hn : after.head? ≠ some '/') : Lexeme .slash .null ['/'] after
  | string {cs after : List Char} (h : '"' ∉ cs) :
      Lexeme .string (.text (.ofList cs)) ('"' :: cs ++ ['"']) after
  | whole {ds after : List Char} {bits : Nat} (hne : ds ≠ []) (h : Run isDigit ds after)
      (hn : ∀ d rest, after = '.' :: d :: rest → isDigit d = false)
      (hbits : Decimal.IsNearest (Decimal.ofDigits ds) bits) :
      Lexeme .number (.real (.ofBits (.ofNat bits))) ds after
  | pointed {ds fs after : List Char} {bits : Nat} (hne : ds ≠ []) (hds : ∀ c ∈ ds, isDigit c = true)
      (hne' : fs ≠ []) (h : Run isDigit fs after)
      (hbits : Decimal.IsNearest (Decimal.ofDigits ds + Decimal.ofDigits fs / 10 ^ fs.length) bits) :
      Lexeme .number (.real (.ofBits (.ofNat bits))) (ds ++ '.' :: fs) after
  | keyword {cs after : List Char} {kind : Kind} (h : Run isLetter cs after)
      (hk : (String.ofList cs, kind) ∈ Kind.keywords) : Lexeme kind .null cs after
  | name {cs after : List Char} (hne : cs ≠ []) (h : Run isLetter cs after)
      (hk : ∀ kind, (String.ofList cs, kind) ∉ Kind.keywords) :
      Lexeme .identifier (.text (.ofList cs)) cs after

/-- What follows the characters `done`, up to a rest: its pieces, tokens and diagnostics in order. -/
inductive Reads : List Char → List Char → List Piece → List Token → List Diagnostic → List Char → Prop where
  | stop {done rest : List Char} : Reads done rest [] [] [] rest
  | gap {done after rest : List Char} {c : Char} {ps : List Piece} {ts : List Token}
      {ds : List Diagnostic} (hc : c ∈ gaps) (h : Reads (done ++ [c]) after ps ts ds rest) :
      Reads done (c :: after) (.gap c :: ps) ts ds rest
  | comment {done cs after rest : List Char} {ps : List Piece} {ts : List Token}
      {ds : List Diagnostic} (hc : Run (· != '\n') cs after)
      (h : Reads (done ++ '/' :: '/' :: cs) after ps ts ds rest) :
      Reads done ('/' :: '/' :: cs ++ after) (.comment ('/' :: '/' :: cs) :: ps) ts ds rest
  | token {done cs after rest : List Char} {kind : Kind} {literal : Json} {ps : List Piece}
      {ts : List Token} {ds : List Diagnostic} (hl : Lexeme kind literal cs after)
      (h : Reads (done ++ cs) after ps ts ds rest) :
      Reads done (cs ++ after) (.lexeme kind cs :: ps)
        (⟨kind, .text (.ofList cs), literal, lineCount (done ++ cs)⟩ :: ts) ds rest
  | stray {done after rest : List Char} {c : Char} {ps : List Piece} {ts : List Token}
      {ds : List Diagnostic} (hc : c ∉ gaps ++ marks) (hd : isDigit c = false)
      (hl : isLetter c = false) (h : Reads (done ++ [c]) after ps ts ds rest) :
      Reads done (c :: after) (.stray c :: ps) ts
        (⟨lineCount (done ++ [c]), .line, .unexpectedCharacter⟩ :: ds) rest

/-- What is found in a text: all of it is read, or all before a quote that is never closed. -/
inductive Reading (cs : List Char) : List Piece → Scan → Prop where
  | whole {ps : List Piece} {ts : List Token} {ds : List Diagnostic}
      (h : Reads [] cs ps ts ds []) : Reading cs ps ⟨ts ++ [.endAt (lineCount cs)], ds, false⟩
  | unclosed {ps : List Piece} {ts : List Token} {ds : List Diagnostic} {us : List Char}
      (hu : '"' ∉ us) (h : Reads [] cs ps ts ds ('"' :: us)) :
      Reading cs (ps ++ [.unclosed ('"' :: us)])
        ⟨ts, ds ++ [⟨lineCount cs, .line, .unterminatedString⟩], true⟩

namespace Run

variable {p : Char → Bool} {cs after : List Char}

theorem takeWhile_eq (h : Run p cs after) : (cs ++ after).takeWhile p = cs := by
  rw [List.takeWhile_append_of_pos h.all]
  cases after with
  | nil => simp
  | cons c rest => simp [h.ends c rfl]

theorem dropWhile_eq (h : Run p cs after) : (cs ++ after).dropWhile p = after := by
  rw [List.dropWhile_append_of_pos h.all]
  cases after with
  | nil => rfl
  | cons c rest => simp [h.ends c rfl]

theorem span (p : Char → Bool) (cs : List Char) : Run p (cs.takeWhile p) (cs.dropWhile p) := by
  refine ⟨fun c hc => List.all_eq_true.1 List.all_takeWhile c hc, fun c hc => ?_⟩
  have h := cs.head?_dropWhile_not p
  rw [Option.mem_def.1 hc] at h
  exact h

end Run

/-- Gaps and marks are no digits and no letters. -/
theorem not_mem_of_isDigit {c : Char} (h : isDigit c = true) : c ∉ gaps ++ marks := by
  have hnone : (gaps ++ marks).all (fun c => !isDigit c) = true := by decide
  intro hc
  have hno := List.all_eq_true.1 hnone c hc
  simp [h] at hno

theorem not_mem_of_isLetter {c : Char} (h : isLetter c = true) : c ∉ gaps ++ marks := by
  have hnone : (gaps ++ marks).all (fun c => !isLetter c) = true := by decide
  intro hc
  have hno := List.all_eq_true.1 hnone c hc
  simp [h] at hno

theorem isDigit_of_isLetter {c : Char} (h : isLetter c = true) : isDigit c = false := by
  have hle : ∀ a b : Char, a ≤ b ↔ a.toNat ≤ b.toNat := fun _ _ => UInt32.le_iff_toNat_le
  by_cases hc : c = '_'
  · rw [hc]; rfl
  · simp [isLetter, isDigit, hle, hc] at h ⊢
    omega

/-- What is no gap and no mark is part of a number or a word, or a mistake. -/
theorem first_plain {c : Char} (hc : c ∉ gaps ++ marks) (rest : List Char) :
    Piece.first c rest =
      if isDigit c then
        (.lexeme .number (c :: rest.takeWhile isDigit ++
          (Piece.fraction (rest.dropWhile isDigit)).1), (Piece.fraction (rest.dropWhile isDigit)).2)
      else if isLetter c then
        (.lexeme (.ofWord (.ofList (c :: rest.takeWhile isLetter))) (c :: rest.takeWhile isLetter),
          rest.dropWhile isLetter)
      else (.stray c, rest) := by
  have hgap : Piece.isGap c = false := by
    simp [gaps] at hc
    simp [Piece.isGap, hc]
  have hsingle : Piece.single? c = none := by
    unfold Piece.single?
    split <;> first | rfl | exact absurd (by decide) hc
  have hjoining : Piece.joining? c = none := by
    unfold Piece.joining?
    split <;> first | rfl | exact absurd (by decide) hc
  have hslash : c ≠ '/' := fun h => hc (h ▸ by decide)
  have hquote : c ≠ '"' := fun h => hc (h ▸ by decide)
  simp only [Piece.first, hgap, hsingle, hjoining, if_neg hslash, if_neg hquote,
    Bool.false_eq_true, if_false]

theorem exists_number {c : Char} (hc : isDigit c = true) (rest : List Char) :
    ∃ literal cs after, c :: rest = cs ++ after ∧ Lexeme .number literal cs after := by
  have hrun := Run.span isDigit (c :: rest)
  have hne : (c :: rest).takeWhile isDigit ≠ [] := by simp [hc]
  have happend : c :: rest = (c :: rest).takeWhile isDigit ++ (c :: rest).dropWhile isDigit :=
    List.takeWhile_append_dropWhile.symm
  by_cases hpoint : ∃ d more, (c :: rest).dropWhile isDigit = '.' :: d :: more ∧ isDigit d = true
  · obtain ⟨d, more, hafter, hd⟩ := hpoint
    have hfraction : (d :: more).takeWhile isDigit ≠ [] := by simp [hd]
    refine ⟨_, _, _, ?_, .pointed hne hrun.all hfraction (Run.span isDigit (d :: more))
      (Decimal.value_ofParts _ _ ▸ Decimal.isNearest_toBits _)⟩
    rw [List.append_assoc, List.cons_append, List.takeWhile_append_dropWhile, ← hafter]
    exact happend
  · refine ⟨_, _, _, happend, .whole hne hrun (fun d more hafter => ?_)
      (Decimal.value_ofParts_nil _ ▸ Decimal.isNearest_toBits _)⟩
    exact Bool.eq_false_iff.2 fun hd => hpoint ⟨d, more, hafter, hd⟩

theorem exists_word {c : Char} (hc : isLetter c = true) (rest : List Char) :
    ∃ kind literal cs after, c :: rest = cs ++ after ∧ Lexeme kind literal cs after := by
  have hrun := Run.span isLetter (c :: rest)
  have hne : (c :: rest).takeWhile isLetter ≠ [] := by simp [hc]
  have happend : c :: rest = (c :: rest).takeWhile isLetter ++ (c :: rest).dropWhile isLetter :=
    List.takeWhile_append_dropWhile.symm
  by_cases hk : ∃ kind, (String.ofList ((c :: rest).takeWhile isLetter), kind) ∈ Kind.keywords
  · obtain ⟨kind, hk⟩ := hk
    exact ⟨kind, _, _, _, happend, .keyword hrun hk⟩
  · exact ⟨_, _, _, _, happend, .name hne hrun fun kind h => hk ⟨kind, h⟩⟩

theorem Lexeme.ne_nil {kind : Kind} {literal : Json} {cs after : List Char}
    (h : Lexeme kind literal cs after) : cs ≠ [] := by
  have hwords : ∀ p ∈ Kind.keywords, p.1 ≠ "" := by decide
  cases h with
  | keyword _ hk =>
    rintro rfl
    exact hwords _ hk rfl
  | whole hne _ _ _ => exact hne
  | name hne _ _ => exact hne
  | pointed hne _ _ _ _ => simp
  | _ => exact List.cons_ne_nil _ _

/-- A reading of a text can begin with a piece. -/
structure Begins (text piece after : List Char) : Prop where
  append : text = piece ++ after
  ne_nil : piece ≠ []
  reads : ∀ {done ps ts ds rest}, Reads (done ++ piece) after ps ts ds rest →
    ∃ ps' ts' ds', Reads done text ps' ts' ds' rest

theorem Lexeme.begins {kind : Kind} {literal : Json} {cs after : List Char}
    (h : Lexeme kind literal cs after) : Begins (cs ++ after) cs after :=
  ⟨rfl, h.ne_nil, fun hr => ⟨_, _, _, .token h hr⟩⟩

theorem begins_comment {cs after : List Char} (h : Run (· != '\n') cs after) :
    Begins ('/' :: '/' :: cs ++ after) ('/' :: '/' :: cs) after :=
  ⟨rfl, List.cons_ne_nil _ _, fun hr => ⟨_, _, _, .comment h hr⟩⟩

theorem begins_mark {c : Char} (hc : c ∈ marks) (hq : c ≠ '"') (rest : List Char) :
    ∃ piece after, Begins (c :: rest) piece after := by
  by_cases hslash : c = '/'
  · subst hslash
    by_cases hn : rest.head? = some '/'
    · obtain ⟨more, rfl⟩ := List.head?_eq_some_iff.1 hn
      have hbegins := begins_comment (Run.span (· != '\n') more)
      rw [List.cons_append, List.cons_append, List.takeWhile_append_dropWhile] at hbegins
      exact ⟨_, _, hbegins⟩
    · exact ⟨_, _, (Lexeme.slash hn).begins⟩
  cases hs : Piece.single? c with
  | some kind => exact ⟨_, _, (Lexeme.single hs).begins⟩
  | none =>
    cases hj : Piece.joining? c with
    | some kinds =>
      by_cases hn : rest.head? = some '='
      · obtain ⟨more, rfl⟩ := List.head?_eq_some_iff.1 hn
        exact ⟨_, _, (Lexeme.joined hj).begins⟩
      · exact ⟨_, _, (Lexeme.alone hj hn).begins⟩
    | none =>
      have hall : marks.all (fun c => (Piece.single? c).isSome || (Piece.joining? c).isSome ||
          c = '/' || c = '"') = true := by decide
      have hc := List.all_eq_true.1 hall c hc
      simp [hs, hj, hslash, hq] at hc

/-- A text begins with a piece that the grammar has, or with a quote that is never closed. -/
theorem exists_begins (c : Char) (rest : List Char) :
    (c = '"' ∧ '"' ∉ rest) ∨ ∃ piece after, Begins (c :: rest) piece after := by
  by_cases hgap : c ∈ gaps
  · exact .inr ⟨[c], rest, rfl, List.cons_ne_nil _ _, fun hr => ⟨_, _, _, .gap hgap hr⟩⟩
  by_cases hquote : c = '"'
  · subst hquote
    by_cases hclose : '"' ∈ rest
    · obtain ⟨cs, after, rfl, hcs⟩ := List.eq_append_cons_of_mem hclose
      have hl : Lexeme .string (.text (.ofList cs)) ('"' :: cs ++ ['"']) after := .string hcs
      have hbegins := hl.begins
      rw [List.cons_append, List.cons_append, List.append_assoc] at hbegins
      exact .inr ⟨_, _, hbegins⟩
    · exact .inl ⟨rfl, hclose⟩
  refine .inr ?_
  by_cases hmark : c ∈ marks
  · exact begins_mark hmark hquote rest
  by_cases hdigit : isDigit c = true
  · obtain ⟨literal, cs, after, happend, hl⟩ := exists_number hdigit rest
    exact ⟨cs, after, happend ▸ hl.begins⟩
  by_cases hletter : isLetter c = true
  · obtain ⟨kind, literal, cs, after, happend, hl⟩ := exists_word hletter rest
    exact ⟨cs, after, happend ▸ hl.begins⟩
  have hplain : c ∉ gaps ++ marks := fun h => (List.mem_append.1 h).elim hgap hmark
  exact ⟨[c], rest, rfl, List.cons_ne_nil _ _, fun hr => ⟨_, _, _,
    .stray hplain (Bool.eq_false_iff.2 hdigit) (Bool.eq_false_iff.2 hletter) hr⟩⟩

/-- Every text is read up to its end or to a quote that is never closed. -/
theorem exists_reads (done cs : List Char) : ∃ ps ts ds rest, Reads done cs ps ts ds rest ∧
    (rest = [] ∨ ∃ us, rest = '"' :: us ∧ '"' ∉ us) := by
  induction hn : cs.length using Nat.strongRecOn generalizing done cs with
  | ind n ih =>
    cases cs with
    | nil => exact ⟨[], [], [], [], .stop, .inl rfl⟩
    | cons c rest =>
      rcases exists_begins c rest with ⟨rfl, hrest⟩ | ⟨piece, after, happend, hne, hreads⟩
      · exact ⟨[], [], [], _, .stop, .inr ⟨rest, rfl, hrest⟩⟩
      · -- A piece takes at least one character, so less is left after it.
        have hlt : after.length < n := by
          have hlength := congrArg List.length happend
          have hpos := List.length_pos_iff.2 hne
          rw [List.length_append] at hlength
          omega
        obtain ⟨ps, ts, ds, r, hr, hend⟩ := ih _ hlt (done ++ piece) after rfl
        obtain ⟨ps', ts', ds', h⟩ := hreads hr
        exact ⟨ps', ts', ds', r, h, hend⟩

/-- The scanner cuts a piece off a text, whatever comes before. -/
def Cuts (piece : Piece) (after : List Char) : Prop :=
  ∃ c tail, piece.text = c :: tail ∧ Piece.first c (tail ++ after) = (piece, after)

theorem Cuts.split {piece : Piece} {after : List Char} (h : Cuts piece after) :
    Piece.split (piece.text ++ after) = piece :: Piece.split after := by
  obtain ⟨c, tail, htext, hfirst⟩ := h
  rw [htext, List.cons_append, Piece.split_cons, hfirst]

theorem fraction_of_not {after : List Char}
    (h : ∀ d rest, after = '.' :: d :: rest → isDigit d = false) :
    Piece.fraction after = ([], after) := by
  unfold Piece.fraction
  split
  next d rest => rw [h d rest rfl]; rfl
  next => rfl

theorem fraction_of_run {fs after : List Char} (hne : fs ≠ []) (h : Run isDigit fs after) :
    Piece.fraction ('.' :: fs ++ after) = ('.' :: fs, after) := by
  obtain ⟨f, fs, rfl⟩ := List.exists_cons_of_ne_nil hne
  obtain ⟨hf, hfs⟩ := List.forall_mem_cons.1 h.all
  have hrun : Run isDigit fs after := ⟨hfs, h.ends⟩
  simp only [Piece.fraction, List.cons_append, if_pos hf, hrun.takeWhile_eq, hrun.dropWhile_eq]

theorem cuts_gap {c : Char} (hc : c ∈ gaps) (after : List Char) : Cuts (.gap c) after := by
  have hall : gaps.all Piece.isGap = true := by decide
  exact ⟨c, [], rfl, by simp [Piece.first, List.all_eq_true.1 hall c hc]⟩

theorem cuts_comment {cs after : List Char} (h : Run (· != '\n') cs after) :
    Cuts (.comment ('/' :: '/' :: cs)) after := by
  -- The scanner looks for the end of the line from the second slash on.
  have hrun : Run (· != '\n') ('/' :: cs) after := ⟨List.forall_mem_cons.2 ⟨rfl, h.all⟩, h.ends⟩
  refine ⟨'/', '/' :: cs, rfl, ?_⟩
  have hfirst : Piece.first '/' ('/' :: cs ++ after) =
      (.comment ('/' :: ('/' :: cs ++ after).takeWhile (· != '\n')),
        ('/' :: cs ++ after).dropWhile (· != '\n')) := rfl
  rw [hfirst, hrun.takeWhile_eq, hrun.dropWhile_eq]

theorem cuts_stray {c : Char} (hc : c ∉ gaps ++ marks) (hd : isDigit c = false)
    (hl : isLetter c = false) (after : List Char) : Cuts (.stray c) after := by
  refine ⟨c, [], rfl, ?_⟩
  rw [first_plain hc, hd, hl]
  rfl

theorem cuts_number {c : Char} {tail fs after rest : List Char} (hc : isDigit c = true)
    (h : Run isDigit tail rest) (hf : Piece.fraction rest = (fs, after)) (hrest : rest = fs ++ after) :
    Cuts (.lexeme .number (c :: tail ++ fs)) after := by
  refine ⟨c, tail ++ fs, rfl, ?_⟩
  rw [first_plain (not_mem_of_isDigit hc), if_pos hc, List.append_assoc, ← hrest, h.takeWhile_eq,
    h.dropWhile_eq, hf]

theorem cuts_word {cs after : List Char} (hne : cs ≠ []) (h : Run isLetter cs after) :
    Cuts (.lexeme (.ofWord (.ofList cs)) cs) after := by
  obtain ⟨c, tail, rfl⟩ := List.exists_cons_of_ne_nil hne
  obtain ⟨hc, htail⟩ := List.forall_mem_cons.1 h.all
  have hrun : Run isLetter tail after := ⟨htail, h.ends⟩
  refine ⟨c, tail, rfl, ?_⟩
  rw [first_plain (not_mem_of_isLetter hc), isDigit_of_isLetter hc, if_neg (by decide), if_pos hc,
    hrun.takeWhile_eq, hrun.dropWhile_eq]

theorem ofWord_of_mem {word : String} {kind : Kind} (h : (word, kind) ∈ Kind.keywords) :
    Kind.ofWord word = kind := by
  have hall : ∀ p ∈ Kind.keywords, Kind.ofWord p.1 = p.2 := by decide
  exact hall _ h

theorem ofWord_of_not_mem {word : String} (h : ∀ kind, (word, kind) ∉ Kind.keywords) :
    Kind.ofWord word = .identifier := by
  have hnone : Kind.keywords.lookup word = none := by
    refine List.lookup_eq_none_iff.2 fun p hp => bne_iff_ne.2 ?_
    rintro rfl
    exact h p.2 hp
  rw [Kind.ofWord, hnone]
  rfl

theorem literal_of_keyword {word : String} {kind : Kind} (h : (word, kind) ∈ Kind.keywords)
    (cs : List Char) : Piece.literal kind cs = .null := by
  have hkinds : ∀ p ∈ Kind.keywords, p.2 ∉ [.identifier, .string, .number] := by decide
  have hkind := hkinds _ h
  unfold Piece.literal
  split <;> simp_all

theorem cuts_alone {c : Char} {alone joined : Kind} {after : List Char}
    (h : Piece.joining? c = some (alone, joined)) (hn : after.head? ≠ some '=') :
    Cuts (.lexeme alone [c]) after := by
  refine ⟨c, [], rfl, ?_⟩
  have hnext : ∀ d more, after = d :: more → d ≠ '=' := by
    rintro d more rfl rfl
    exact hn rfl
  unfold Piece.joining? at h
  split at h <;> cases h
  all_goals
    cases after with
    | nil => rfl
    | cons d more =>
      simp [Piece.first, Piece.isGap, Piece.single?, Piece.joining?, hnext d more rfl]

theorem cuts_slash {after : List Char} (hn : after.head? ≠ some '/') :
    Cuts (.lexeme .slash ['/']) after := by
  refine ⟨'/', [], rfl, ?_⟩
  cases after with
  | nil => rfl
  | cons d more =>
    have hd : d ≠ '/' := fun h => hn (h ▸ rfl)
    simp [Piece.first, Piece.isGap, Piece.single?, Piece.joining?, hd]

theorem run_string {cs : List Char} (h : '"' ∉ cs) (after : List Char) :
    Run (· != '"') cs ('"' :: after) :=
  ⟨fun _ hc => bne_iff_ne.2 fun he => h (he ▸ hc), fun c hc => by cases hc; rfl⟩

theorem cuts_string {cs : List Char} (h : '"' ∉ cs) (after : List Char) :
    Cuts (.lexeme .string ('"' :: cs ++ ['"'])) after := by
  have hrun := run_string h after
  refine ⟨'"', cs ++ ['"'], rfl, ?_⟩
  rw [List.append_assoc, List.singleton_append, Piece.first_quote, hrun.dropWhile_eq,
    hrun.takeWhile_eq]

theorem cuts_whole {ds after : List Char} (hne : ds ≠ []) (h : Run isDigit ds after)
    (hn : ∀ d rest, after = '.' :: d :: rest → isDigit d = false) :
    Cuts (.lexeme .number ds) after := by
  obtain ⟨c, tail, rfl⟩ := List.exists_cons_of_ne_nil hne
  obtain ⟨hc, htail⟩ := List.forall_mem_cons.1 h.all
  have hcuts := cuts_number hc ⟨htail, h.ends⟩ (fraction_of_not hn) rfl
  rwa [List.append_nil] at hcuts

theorem run_pointed {ds : List Char} (h : ∀ c ∈ ds, isDigit c = true) (rest : List Char) :
    Run isDigit ds ('.' :: rest) :=
  ⟨h, fun c hc => by cases hc; rfl⟩

theorem cuts_pointed {ds fs after : List Char} (hne : ds ≠ []) (hds : ∀ c ∈ ds, isDigit c = true)
    (hfs : fs ≠ []) (h : Run isDigit fs after) : Cuts (.lexeme .number (ds ++ '.' :: fs)) after := by
  obtain ⟨c, tail, rfl⟩ := List.exists_cons_of_ne_nil hne
  obtain ⟨hc, htail⟩ := List.forall_mem_cons.1 hds
  exact cuts_number hc (run_pointed htail (fs ++ after)) (fraction_of_run hfs h) rfl

/-- The scanner cuts off the lexemes of the grammar and takes them for what they are. -/
theorem Lexeme.cuts {kind : Kind} {literal : Json} {cs after : List Char}
    (h : Lexeme kind literal cs after) :
    Cuts (.lexeme kind cs) after ∧ Piece.literal kind cs = literal := by
  cases h with
  | @single c _ _ h =>
    unfold Piece.single? at h
    split at h <;> cases h <;> exact ⟨⟨_, [], rfl, rfl⟩, rfl⟩
  | @joined c _ _ _ h =>
    unfold Piece.joining? at h
    split at h <;> cases h <;> exact ⟨⟨_, ['='], rfl, rfl⟩, rfl⟩
  | @alone c _ _ _ h hn =>
    refine ⟨cuts_alone h hn, ?_⟩
    unfold Piece.joining? at h
    split at h <;> cases h <;> rfl
  | slash hn => exact ⟨cuts_slash hn, rfl⟩
  | @string cs _ h =>
    refine ⟨cuts_string h after, ?_⟩
    have hbody : ('"' :: cs ++ ['"']).tail.dropLast = cs := List.dropLast_concat
    rw [Piece.literal, hbody]
  | whole hne h hn hbits =>
    refine ⟨cuts_whole hne h hn, ?_⟩
    have hrun : Run isDigit cs [] := ⟨h.all, nofun⟩
    have htake := hrun.takeWhile_eq
    have hdrop := hrun.dropWhile_eq
    rw [List.append_nil] at htake hdrop
    rw [← Decimal.value_ofParts_nil, Decimal.isNearest_iff] at hbits
    rw [Piece.literal, htake, hdrop, ← hbits]
    rfl
  | @pointed ds fs _ _ hne hds hfs h hbits =>
    refine ⟨cuts_pointed hne hds hfs h, ?_⟩
    have hrun := run_pointed hds fs
    rw [← Decimal.value_ofParts, Decimal.isNearest_iff] at hbits
    rw [Piece.literal, hrun.takeWhile_eq, hrun.dropWhile_eq, ← hbits]
    rfl
  | keyword h hk =>
    have hcuts := cuts_word (Lexeme.keyword h hk).ne_nil h
    rw [ofWord_of_mem hk] at hcuts
    exact ⟨hcuts, literal_of_keyword hk cs⟩
  | name hne h hk =>
    have hcuts := cuts_word hne h
    rw [ofWord_of_not_mem hk] at hcuts
    exact ⟨hcuts, rfl⟩

/-- No token of the grammar is an end mark. -/
theorem Lexeme.kind_ne {kind : Kind} {literal : Json} {cs after : List Char}
    (h : Lexeme kind literal cs after) : kind ≠ .eof := by
  obtain ⟨⟨c, tail, -, hfirst⟩, -⟩ := h.cuts
  have hplain := Piece.isPlain_first c (tail ++ after)
  rw [hfirst] at hplain
  exact hplain

theorem lineCount_append (done cs : List Char) :
    lineCount (done ++ cs) = lineCount done + cs.count '\n' := by
  rw [lineCount, lineCount, List.count_append, Nat.add_right_comm]

theorem step_line {s : Scanner} {done : List Char} (hline : s.line = lineCount done) (p : Piece) :
    (s.step p).line = lineCount (done ++ p.text) := by
  rw [Scanner.line_step, hline, lineCount_append, Piece.newlines]

namespace Reads

variable {done cs rest : List Char} {ps : List Piece} {ts : List Token} {ds : List Diagnostic}

/-- The pieces joined are what was read. -/
theorem append (h : Reads done cs ps ts ds rest) : cs = ps.flatMap Piece.text ++ rest := by
  induction h with
  | stop => rfl
  | gap _ _ ih | stray _ _ _ _ ih => exact congrArg _ ih
  | comment _ _ ih | token _ _ ih => rw [List.flatMap_cons, List.append_assoc, ← ih]; rfl

/-- The scanner cuts the text into the same pieces. -/
theorem split (h : Reads done cs ps ts ds rest) : Piece.split cs = ps ++ Piece.split rest := by
  induction h with
  | stop => rfl
  | gap hc _ ih => exact (cuts_gap hc _).split.trans (congrArg _ ih)
  | comment hc _ ih => exact (cuts_comment hc).split.trans (congrArg _ ih)
  | token hl _ ih => exact hl.cuts.1.split.trans (congrArg _ ih)
  | stray hc hd hl _ ih => exact (cuts_stray hc hd hl _).split.trans (congrArg _ ih)

theorem kind_ne (h : Reads done cs ps ts ds rest) : ∀ t ∈ ts, t.kind ≠ .eof := by
  induction h with
  | stop => exact nofun
  | token hl _ ih => exact List.forall_mem_cons.2 ⟨hl.kind_ne, ih⟩
  | gap _ _ ih | comment _ _ ih | stray _ _ _ _ ih => exact ih

/-- From the line that the characters before end on, the scanner finds the same in the pieces. -/
theorem foldl (h : Reads done cs ps ts ds rest) (s : Scanner) (hline : s.line = lineCount done) :
    ps.foldl Scanner.step s = ⟨lineCount (done ++ ps.flatMap Piece.text), s.tokens ++ ts,
      s.diagnostics ++ ds, s.fatal⟩ := by
  induction h generalizing s with
  | stop => simp [← hline]
  | @gap _ _ _ c _ _ _ _ _ ih =>
    rw [List.foldl_cons, ih _ (step_line hline (.gap c)), List.flatMap_cons, List.append_assoc]
    rfl
  | @comment _ cs _ _ _ _ _ _ _ ih =>
    rw [List.foldl_cons, ih _ (step_line hline (.comment _)), List.flatMap_cons, List.append_assoc]
    rfl
  | @token _ cs _ _ kind _ _ _ _ hl _ ih =>
    obtain ⟨-, rfl⟩ := hl.cuts
    have hstep : (s.step (.lexeme kind cs)).line = lineCount (_ ++ cs) := step_line hline _
    rw [List.foldl_cons, ih _ hstep, List.flatMap_cons, ← List.append_assoc, Array.appendList_cons,
      ← hstep]
    rfl
  | @stray _ _ _ c _ _ _ _ _ _ _ ih =>
    have hstep : (s.step (.stray c)).line = lineCount (_ ++ [c]) := step_line hline _
    rw [List.foldl_cons, ih _ hstep, List.flatMap_cons, ← List.append_assoc, Array.appendList_cons,
      ← hstep]
    rfl

end Reads

theorem split_unclosed {us : List Char} (h : '"' ∉ us) :
    Piece.split ('"' :: us) = [.unclosed ('"' :: us)] := by
  have hdrop : us.dropWhile (· != '"') = [] :=
    (List.dropWhile_eq_nil_iff).2 fun _ hc => bne_iff_ne.2 fun he => h (he ▸ hc)
  rw [Piece.split_cons, Piece.first_quote, hdrop]
  rfl

theorem exists_reading (cs : List Char) : ∃ ps found, Reading cs ps found := by
  obtain ⟨ps, ts, ds, rest, h, rfl | ⟨us, rfl, hu⟩⟩ := exists_reads [] cs
  · exact ⟨_, _, .whole h⟩
  · exact ⟨_, _, .unclosed hu h⟩

namespace Reading

theorem append {cs : List Char} {ps : List Piece} {found : Scan} (h : Reading cs ps found) :
    ps.flatMap Piece.text = cs := by
  cases h with
  | whole h => exact (List.append_nil _).symm.trans h.append.symm
  | unclosed _ h => rw [h.append, List.flatMap_append, List.flatMap_singleton]; rfl

theorem split {cs : List Char} {ps : List Piece} {found : Scan} (h : Reading cs ps found) :
    Piece.split cs = ps := by
  cases h with
  | whole h => exact h.split.trans (List.append_nil _)
  | unclosed hu h => rw [h.split, split_unclosed hu]

theorem scan {text : String} {ps : List Piece} {found : Scan} (h : Reading text.toList ps found) :
    Lox.scan text = found := by
  have hdone := h.append
  rw [Lox.scan, h.split]
  cases h with
  | whole h =>
    rw [h.foldl .start rfl, List.nil_append, hdone]
    simp [Scanner.finish, Scanner.start]
  | @unclosed ps _ _ us _ h =>
    have hline : lineCount (ps.flatMap Piece.text) + (Piece.unclosed ('"' :: us)).newlines =
        lineCount text.toList := by
      rw [← hdone, List.flatMap_append, lineCount_append, Piece.newlines, List.flatMap_singleton]
    rw [List.foldl_append, h.foldl .start rfl, List.nil_append, ← hline]
    simp [Scanner.finish, Scanner.start, Scanner.step]

/-- A scan that got through has one end mark, on the last line. -/
theorem ends {cs : List Char} {ps : List Piece} {found : Scan} (h : Reading cs ps found) :
    found.tokens.filter Token.isEnd = if found.fatal then [] else [.endAt (lineCount cs)] := by
  have hnone : ∀ {ps ts ds rest}, Reads [] cs ps ts ds rest → ts.filter Token.isEnd = [] :=
    fun h => List.filter_eq_nil_iff.2 fun t ht => by simpa [Token.isEnd] using h.kind_ne t ht
  cases h with
  | whole h =>
    rw [List.filter_append, hnone h]
    rfl
  | unclosed _ h => exact hnone h

end Reading

end Lexical

/-- There is one way to cut a text into tokens, comments, gaps and mistakes, with nothing left over but a
quote that is never closed, and it is what the scan finds. -/
theorem scan_partitions (text : String) : ∃ ps, Lexical.Reading text.toList ps (scan text) ∧
    ps.flatMap Piece.text = text.toList ∧
    ((scan text).tokens.filter Token.isEnd =
      if (scan text).fatal then [] else [.endAt (lineCount text.toList)]) ∧
    ∀ ps' found, Lexical.Reading text.toList ps' found → ps' = ps ∧ found = scan text := by
  obtain ⟨ps, found, h⟩ := Lexical.exists_reading text.toList
  rw [h.scan]
  refine ⟨ps, h, h.append, h.ends, fun ps' found' h' => ⟨?_, ?_⟩⟩
  · exact h'.split.symm.trans h.split
  · exact h'.scan.symm.trans h.scan

theorem scan_partitions_mistake :
    let found : Scan := ⟨[⟨.identifier, .text "a", .text "a", 1⟩, ⟨.less, .text "<", .null, 1⟩,
      ⟨.number, .text "1.5", .real (.ofBits (.ofNat 4609434218613702656)), 1⟩, .endAt 2],
      [⟨2, .line, .unexpectedCharacter⟩], false⟩
    Lexical.Reading "a<1.5//b\n#".toList [.lexeme .identifier ['a'], .lexeme .less ['<'],
      .lexeme .number ['1', '.', '5'], .comment ['/', '/', 'b'], .gap '\n', .stray '#'] found ∧
      found = scan "a<1.5//b\n#" := by
  intro found
  have hwords : ∀ p ∈ Kind.keywords, p.1 ≠ "a" := by decide
  have hname : Lexical.Lexeme .identifier (.text "a") ['a']
      ['<', '1', '.', '5', '/', '/', 'b', '\n', '#'] :=
    .name (by decide) ⟨List.forall_mem_singleton.2 rfl, fun _ hc => by cases hc; rfl⟩
      fun _ h => hwords _ h rfl
  have hless : Lexical.Lexeme .less .null ['<'] ['1', '.', '5', '/', '/', 'b', '\n', '#'] :=
    .alone rfl (by decide)
  have hbits : Decimal.IsNearest (Decimal.ofDigits ['1'] +
      Decimal.ofDigits ['5'] / 10 ^ ['5'].length) 4609434218613702656 := by
    rw [← Decimal.value_ofParts, Decimal.isNearest_iff]
    decide +kernel
  have hnumber := @Lexical.Lexeme.pointed ['1'] ['5'] ['/', '/', 'b', '\n', '#'] _ (by decide)
    (List.forall_mem_singleton.2 rfl) (by decide)
    ⟨List.forall_mem_singleton.2 rfl, fun _ hc => by cases hc; rfl⟩ hbits
  have hcomment : Lexical.Run (· != '\n') ['b'] ['\n', '#'] :=
    ⟨List.forall_mem_singleton.2 rfl, fun _ hc => by cases hc; rfl⟩
  have hreads : Lexical.Reads [] ['a', '<', '1', '.', '5', '/', '/', 'b', '\n', '#'] _ _ _ [] :=
    .token hname (.token hless (.token hnumber (.comment hcomment
      (.gap (by decide) (.stray (by decide) rfl rfl .stop)))))
  have hreading : Lexical.Reading "a<1.5//b\n#".toList _ found := .whole hreads
  obtain ⟨ps, -, -, -, hunique⟩ := scan_partitions "a<1.5//b\n#"
  exact ⟨hreading, (hunique _ found hreading).2⟩

end Lox
