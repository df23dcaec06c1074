import Lox.Proofs.Node.Relabel
import Lox.Proofs.Scan.Lines

/-!
Scans of texts that stand one below the other. Main statement: if each text by itself is scanned without a
diagnostic, then so are all of them together, and the tokens are those of the texts in order, counted on
from line to line, with one end mark.
-/

set_option autoImplicit false

namespace Lox

namespace Piece

/-- Up to a line's end nothing changes when more lines follow. -/
theorem takeWhile_line {p : Char → Bool} (hp : p '\n' = false) (cs more : List Char) :
    (cs ++ '\n' :: more).takeWhile p = cs.takeWhile p := by
  induction cs with
  | nil => simp [hp]
  | cons c cs ih => simp only [List.cons_append, List.takeWhile_cons, ih]

theorem dropWhile_line {p : Char → Bool} (hp : p '\n' = false) (cs more : List Char) :
    (cs ++ '\n' :: more).dropWhile p = cs.dropWhile p ++ '\n' :: more := by
  induction cs with
  | nil => simp [hp]
  | cons c cs ih =>
    simp only [List.cons_append, List.dropWhile_cons, ih]
    split <;> rfl

theorem fraction_line (cs more : List Char) : fraction (cs ++ '\n' :: more) =
    ((fraction cs).1, (fraction cs).2 ++ '\n' :: more) := by
  have hdigit : isDigit '\n' = false := by decide
  match cs with
  | [] => rfl
  | [c] =>
    by_cases hc : c = '.'
    · subst hc
      rfl
    · simp [fraction, hc]
  | c :: d :: rest =>
    by_cases hc : c = '.'
    · subst hc
      simp only [fraction, List.cons_append]
      split
      · rw [takeWhile_line hdigit, dropWhile_line hdigit]
      · rfl
    · simp [fraction, hc]

/-- A piece that is no mistake. -/
def isProper : Piece → Prop
  | .stray _ | .unclosed _ => False
  | _ => True

theorem first_quote (rest : List Char) : first '"' rest =
    match rest.dropWhile (· != '"') with
    | [] => (.unclosed ('"' :: rest), [])
    | close :: after => (.lexeme .string ('"' :: rest.takeWhile (· != '"') ++ [close]), after) := rfl

theorem first_quote_line {rest : List Char} (h : (first '"' rest).1.isProper) (more : List Char) :
    first '"' (rest ++ '\n' :: more) =
      ((first '"' rest).1, (first '"' rest).2 ++ '\n' :: more) := by
  rw [first_quote] at h
  rw [first_quote, first_quote, List.dropWhile_append, List.takeWhile_append]
  cases hd : rest.dropWhile (· != '"') with
  | nil =>
    rw [hd] at h
    exact h.elim
  | cons close after =>
    have hlength : (rest.takeWhile (· != '"')).length ≠ rest.length := by
      have hall := congrArg List.length (rest.takeWhile_append_dropWhile (p := (· != '"')))
      rw [hd, List.length_append, List.length_cons] at hall
      omega
    simp [hlength]

/-- Only a text without its closing quote goes on over what follows. -/
theorem first_line {c : Char} {rest : List Char} (h : (first c rest).1.isProper) (more : List Char) :
    first c (rest ++ '\n' :: more) = ((first c rest).1, (first c rest).2 ++ '\n' :: more) := by
  have hdigit : isDigit '\n' = false := by decide
  have hletter : isLetter '\n' = false := by decide
  by_cases hquote : c = '"'
  · subst hquote
    exact first_quote_line h more
  unfold first
  split
  · rfl
  split
  · rfl
  split
  · cases rest with
    | nil => rfl
    | cons d rest =>
      by_cases hd : d = '='
      · subst hd
        rfl
      · simp [hd]
  split
  · cases rest with
    | nil => rfl
    | cons d rest =>
      by_cases hd : d = '/'
      · subst hd
        simp only [List.cons_append]
        rw [← List.cons_append, takeWhile_line (by decide), dropWhile_line (by decide)]
      · simp [hd]
  split
  · simp only [takeWhile_line hdigit, dropWhile_line hdigit, fraction_line]
  split
  · simp only [takeWhile_line hletter, dropWhile_line hletter]
  · rfl

theorem toList_splitOnto (done : Array Piece) (turns : Nat) (cs : List Char) :
    (splitOnto done turns cs).toList = done.toList ++ (splitOnto #[] turns cs).toList := by
  induction turns generalizing done cs with
  | zero => simp [splitOnto]
  | succ turns ih =>
    cases cs with
    | nil => simp [splitOnto]
    | cons c rest =>
      simp only [splitOnto]
      rw [ih (done.push _), ih (#[].push _)]
      simp

theorem length_first_le (c : Char) (rest : List Char) : (first c rest).2.length ≤ rest.length := by
  have happend := congrArg List.length (first_append c rest)
  have hpos := text_first_pos c rest
  rw [List.length_append, List.length_cons] at happend
  omega

/-- Turns beyond the characters make no difference. -/
theorem splitOnto_eq_split {turns : Nat} {cs : List Char} (h : cs.length ≤ turns) :
    (splitOnto #[] turns cs).toList = split cs := by
  induction turns using Nat.strongRecOn generalizing cs with
  | ind turns ih =>
    cases cs with
    | nil => cases turns <;> rfl
    | cons c rest =>
      rw [List.length_cons] at h
      obtain ⟨turns, rfl⟩ := Nat.exists_eq_add_of_lt h
      have hle := length_first_le c rest
      rw [split, List.length_cons, splitOnto, splitOnto, toList_splitOnto,
        toList_splitOnto (#[].push _) rest.length, ih _ (by omega) (by omega),
        ih rest.length (by omega) hle]

theorem split_cons (c : Char) (rest : List Char) :
    split (c :: rest) = (first c rest).1 :: split (first c rest).2 := by
  rw [split, List.length_cons, splitOnto, toList_splitOnto,
    splitOnto_eq_split (length_first_le c rest)]
  rfl

/-- The pieces of a text, a line's end and the pieces of what follows. -/
theorem split_line {cs : List Char} (h : ∀ p ∈ split cs, p.isProper) (more : List Char) :
    split (cs ++ '\n' :: more) = split cs ++ .gap '\n' :: split more := by
  induction hn : cs.length using Nat.strongRecOn generalizing cs with
  | ind n ih =>
    cases cs with
    | nil => exact split_cons '\n' more
    | cons c rest =>
      rw [split_cons] at h
      obtain ⟨hfirst, hrest⟩ := List.forall_mem_cons.1 h
      have hlt : (first c rest).2.length < n := by
        have hle := length_first_le c rest
        rw [List.length_cons] at hn
        omega
      rw [List.cons_append, split_cons, first_line hfirst, ih _ hlt hrest rfl, split_cons,
        List.cons_append]

/-- The tokens of pieces, from a line on. -/
def tokensFrom (line : Nat) : List Piece → List Token
  | [] => []
  | p :: ps =>
    let line := line + p.newlines
    match p with
    | .lexeme kind cs => ⟨kind, .text (.ofList cs), literal kind cs, line⟩ :: tokensFrom line ps
    | _ => tokensFrom line ps

theorem tokensFrom_append (line : Nat) (ps qs : List Piece) : tokensFrom line (ps ++ qs) =
    tokensFrom line ps ++ tokensFrom (line + (ps.flatMap text).count '\n') qs := by
  induction ps generalizing line with
  | nil => rfl
  | cons p ps ih =>
    have hcount : line + ((p :: ps).flatMap text).count '\n' =
        line + p.newlines + (ps.flatMap text).count '\n' := by
      rw [List.flatMap_cons, List.count_append, newlines, Nat.add_assoc]
    rw [List.cons_append, hcount]
    cases p <;> simp only [tokensFrom, ih, List.cons_append]

theorem tokensFrom_add (line k : Nat) (ps : List Piece) :
    tokensFrom (line + k) ps = (tokensFrom line ps).map (Token.down k) := by
  induction ps generalizing line with
  | nil => rfl
  | cons p ps ih =>
    have hline : line + k + p.newlines = line + p.newlines + k := Nat.add_right_comm _ _ _
    cases p <;> simp only [tokensFrom, hline, ih, List.map_cons, Token.down, Int.natCast_add]

end Piece

namespace Scanner

theorem isProper_of_foldl {s : Scanner} {ps : List Piece}
    (h : (ps.foldl Scanner.step s).diagnostics = #[]) :
    s.diagnostics = #[] ∧ ∀ p ∈ ps, p.isProper := by
  induction ps generalizing s with
  | nil => exact ⟨h, nofun⟩
  | cons p ps ih =>
    obtain ⟨hstep, hps⟩ := ih h
    have hp : s.diagnostics = #[] ∧ p.isProper := by
      cases p with
      | stray c => exact (Array.push_ne_empty hstep).elim
      | unclosed cs => exact (Array.push_ne_empty hstep).elim
      | _ => exact ⟨hstep, trivial⟩
    exact ⟨hp.1, List.forall_mem_cons.2 ⟨hp.2, hps⟩⟩

theorem foldl_of_isProper (s : Scanner) {ps : List Piece} (h : ∀ p ∈ ps, p.isProper) :
    (ps.foldl Scanner.step s).tokens.toList = s.tokens.toList ++ Piece.tokensFrom s.line ps ∧
      (ps.foldl Scanner.step s).diagnostics = s.diagnostics ∧
      (ps.foldl Scanner.step s).fatal = s.fatal := by
  induction ps generalizing s with
  | nil => exact ⟨(List.append_nil _).symm, rfl, rfl⟩
  | cons p ps ih =>
    obtain ⟨hp, hps⟩ := List.forall_mem_cons.1 h
    obtain ⟨htokens, hdiagnostics, hfatal⟩ := ih (s.step p) hps
    rw [List.foldl_cons, htokens, hdiagnostics, hfatal, line_step]
    cases p with
    | stray c => exact hp.elim
    | unclosed cs => exact hp.elim
    | lexeme kind cs => simp [step, Piece.tokensFrom]
    | _ => exact ⟨rfl, rfl, rfl⟩

end Scanner

/-- The tokens of a text but for the end mark, as long as the text has no mistake. -/
def Token.ofText (text : String) : List Token := Piece.tokensFrom 1 (Piece.split text.toList)

theorem isProper_of_scan {text : String} (h : (scan text).diagnostics = []) :
    ∀ p ∈ Piece.split text.toList, p.isProper :=
  (Scanner.isProper_of_foldl (Array.toList_inj.1 h)).2

theorem scan_of_isProper {text : String} (h : ∀ p ∈ Piece.split text.toList, p.isProper) :
    scan text = ⟨Token.ofText text ++ [.endAt (lineCount text.toList)], [], false⟩ := by
  obtain ⟨htokens, hdiagnostics, hfatal⟩ := Scanner.foldl_of_isProper .start h
  have hline := Scanner.line_foldl .start (Piece.split text.toList)
  rw [Piece.flatMap_split, Nat.add_comm] at hline
  rw [scan, Scanner.finish, hfatal, hdiagnostics, if_neg (by decide), Array.toList_push, htokens,
    hline]
  rfl

namespace Text

/-- Texts one below the other. -/
def stack : List String → String
  | [] => ""
  | [text] => text
  | text :: texts => text ++ "\n" ++ stack texts

/-- The texts, each with the number of lines above it. -/
def placed (above : Nat) : List String → List (Nat × String)
  | [] => []
  | text :: texts => (above, text) :: placed (above + lineCount text.toList) texts

example (a b : String) : stack [a, b] = a ++ "\n" ++ b := rfl

example (a b : String) : placed 0 [a, b] = [(0, a), (0 + lineCount a.toList, b)] := rfl

theorem mem_of_mem_placed {above : Nat} {texts : List String} {p : Nat × String}
    (h : p ∈ placed above texts) : p.2 ∈ texts := by
  induction texts generalizing above with
  | nil => cases h
  | cons text texts ih =>
    rcases List.mem_cons.1 h with rfl | h
    · exact List.mem_cons_self
    · exact List.mem_cons_of_mem _ (ih h)

theorem split_stack {text : String} (h : ∀ p ∈ Piece.split text.toList, p.isProper)
    (next : String) (texts : List String) : Piece.split (stack (text :: next :: texts)).toList =
      Piece.split text.toList ++ .gap '\n' :: Piece.split (stack (next :: texts)).toList := by
  have htext : (stack (text :: next :: texts)).toList =
      text.toList ++ '\n' :: (stack (next :: texts)).toList := by
    have hstack : stack (text :: next :: texts) = text ++ "\n" ++ stack (next :: texts) := rfl
    rw [hstack, String.toList_append, String.toList_append, List.append_assoc]
    rfl
  rw [htext, Piece.split_line h]

theorem isProper_stack {texts : List String}
    (h : ∀ text ∈ texts, ∀ p ∈ Piece.split text.toList, p.isProper) :
    ∀ p ∈ Piece.split (stack texts).toList, p.isProper := by
  induction texts with
  | nil => exact nofun
  | cons text texts ih =>
    obtain ⟨htext, htexts⟩ := List.forall_mem_cons.1 h
    cases texts with
    | nil => exact htext
    | cons next texts =>
      rw [split_stack htext]
      exact List.forall_mem_append.2 ⟨htext, List.forall_mem_cons.2 ⟨trivial, ih htexts⟩⟩

theorem tokensFrom_stack {texts : List String}
    (h : ∀ text ∈ texts, ∀ p ∈ Piece.split text.toList, p.isProper) (above : Nat) :
    Piece.tokensFrom (above + 1) (Piece.split (stack texts).toList) =
      (placed above texts).flatMap fun p => (Token.ofText p.2).map (Token.down p.1) := by
  induction texts generalizing above with
  | nil => rfl
  | cons text texts ih =>
    obtain ⟨htext, htexts⟩ := List.forall_mem_cons.1 h
    have hfirst : Piece.tokensFrom (above + 1) (Piece.split text.toList) =
        (Token.ofText text).map (Token.down above) := by
      rw [Nat.add_comm, Piece.tokensFrom_add, Token.ofText]
    cases texts with
    | nil => simp [stack, placed, hfirst]
    | cons next texts =>
      have hline : above + 1 + text.toList.count '\n' + 1 = above + lineCount text.toList + 1 := by
        rw [lineCount]
        omega
      rw [split_stack htext, Piece.tokensFrom_append, Piece.flatMap_split, hfirst, placed,
        List.flatMap_cons, ← ih htexts, ← hline]
      rfl

end Text

/-- The tokens of texts that stand one below the other. -/
theorem scan_stack {texts : List String} (h : ∀ text ∈ texts, (scan text).diagnostics = []) :
    scan (Text.stack texts) = ⟨((Text.placed 0 texts).flatMap fun p =>
      (Token.ofText p.2).map (Token.down p.1)) ++ [.endAt (lineCount (Text.stack texts).toList)],
      [], false⟩ := by
  have hproper := fun text ht => isProper_of_scan (h text ht)
  rw [scan_of_isProper (Text.isProper_stack hproper), Token.ofText, ← Text.tokensFrom_stack hproper]

end Lox
