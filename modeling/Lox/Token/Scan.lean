import Lox.Diagnostic

/-!
Source text to tokens. The text is first cut into pieces, which joined give it back: white space,
comments, lexemes, and characters that begin nothing. Then the lines are counted along the pieces and
each lexeme becomes a token.
-/

set_option autoImplicit false

namespace Lox

inductive Piece where
  | gap (c : Char)
  | comment (text : List Char)
  | lexeme (kind : Kind) (text : List Char)
  | stray (c : Char)
  | unclosed (text : List Char)
  deriving DecidableEq, Repr

namespace Piece

/-- The characters of a piece. -/
def text : Piece → List Char
  | .gap c => [c]
  | .comment cs => cs
  | .lexeme _ cs => cs
  | .stray c => [c]
  | .unclosed cs => cs

def isGap (c : Char) : Bool := c = ' ' || c = '\t' || c = '\r' || c = '\n'

/-- The characters that are tokens whatever follows. -/
def single? : Char → Option Kind
  | '(' => some .leftParen
  | ')' => some .rightParen
  | '{' => some .leftBrace
  | '}' => some .rightBrace
  | ',' => some .comma
  | '.' => some .dot
  | '-' => some .minus
  | '+' => some .plus
  | ';' => some .semicolon
  | '*' => some .star
  | _ => none

/-- The characters that an equals sign joins: their kind alone and with it. -/
def joining? : Char → Option (Kind × Kind)
  | '!' => some (.bang, .bangEqual)
  | '=' => some (.equal, .equalEqual)
  | '<' => some (.less, .lessEqual)
  | '>' => some (.greater, .greaterEqual)
  | _ => none

/-- A point and the digits after it. A point without a digit after it is not part of a number. -/
def fraction : List Char → List Char × List Char
  | '.' :: d :: rest =>
    if isDigit d then ('.' :: d :: rest.takeWhile isDigit, rest.dropWhile isDigit)
    else ([], '.' :: d :: rest)
  | rest => ([], rest)

/-- The longest piece that begins a text, and what follows it. -/
def first (c : Char) (rest : List Char) : Piece × List Char :=
  if isGap c then (.gap c, rest)
  else if let some kind := single? c then (.lexeme kind [c], rest)
  else if let some (alone, joined) := joining? c then
    match rest with
    | '=' :: rest => (.lexeme joined [c, '='], rest)
    | _ => (.lexeme alone [c], rest)
  else if c = '/' then
    match rest with
    | '/' :: _ => (.comment (c :: rest.takeWhile (· != '\n')), rest.dropWhile (· != '\n'))
    | _ => (.lexeme .slash [c], rest)
  else if c = '"' then
    match rest.dropWhile (· != '"') with
    | [] => (.unclosed (c :: rest), [])
    | close :: after => (.lexeme .string (c :: rest.takeWhile (· != '"') ++ [close]), after)
  else if isDigit c then
    let whole := c :: rest.takeWhile isDigit
    let (tail, after) := fraction (rest.dropWhile isDigit)
    (.lexeme .number (whole ++ tail), after)
  else if isLetter c then
    let word := c :: rest.takeWhile isLetter
    (.lexeme (.ofWord (.ofList word)) word, rest.dropWhile isLetter)
  else (.stray c, rest)

theorem fraction_append (cs : List Char) : (fraction cs).1 ++ (fraction cs).2 = cs := by
  unfold fraction
  split
  · split <;> simp
  · rfl

/-- A piece and what follows it are the text. -/
theorem first_append (c : Char) (rest : List Char) :
    (first c rest).1.text ++ (first c rest).2 = c :: rest := by
  unfold first
  split
  · rfl
  · split
    · rfl
    · split
      · split <;> rfl
      · split
        · split <;> simp [text]
        · split
          · split
            next h => simp [text]
            next close after h => simp [text, ← h]
          · split
            · simp [text, fraction_append]
            · split <;> simp [text]

theorem text_first_pos (c : Char) (rest : List Char) : 0 < (first c rest).1.text.length := by
  unfold first
  repeat' split
  all_goals simp [text]

/-- Adds the pieces of a text to `done`. A piece takes at least one character, so as many turns as
there are characters are enough. -/
def splitOnto (done : Array Piece) : Nat → List Char → Array Piece
  | turns + 1, c :: rest =>
    let (piece, rest) := first c rest
    splitOnto (done.push piece) turns rest
  | _, _ => done

/-- The pieces of a text. -/
def split (cs : List Char) : List Piece := (splitOnto #[] cs.length cs).toList

theorem flatMap_splitOnto (done : Array Piece) (turns : Nat) (cs : List Char)
    (h : cs.length ≤ turns) :
    (splitOnto done turns cs).toList.flatMap text = done.toList.flatMap text ++ cs := by
  induction turns generalizing done cs with
  | zero =>
    cases cs with
    | nil => simp [splitOnto]
    | cons c rest => simp at h
  | succ turns ih =>
    cases cs with
    | nil => simp [splitOnto]
    | cons c rest =>
      have hf := first_append c rest
      have hp : 0 < (first c rest).1.text.length := text_first_pos c rest
      have hl := congrArg List.length hf
      simp only [List.length_append, List.length_cons] at hl h
      rw [splitOnto, ih _ _ (by omega)]
      simp [hf]

/-- The pieces of a text joined are the text. -/
theorem flatMap_split (cs : List Char) : (split cs).flatMap text = cs := by
  simp [split, flatMap_splitOnto #[] cs.length cs (Nat.le_refl _)]

/-- How many lines end inside a piece. -/
def newlines (p : Piece) : Nat := p.text.count '\n'

/-- The value that a lexeme stands for: a name, the text between quotes, or a number. -/
def literal (kind : Kind) (cs : List Char) : Json :=
  match kind with
  | .identifier => .text (.ofList cs)
  | .string => .text (.ofList cs.tail.dropLast)
  | .number =>
    .real (Decimal.ofParts (cs.takeWhile isDigit) ((cs.dropWhile isDigit).drop 1) 0).toFloat
  | _ => .null

end Piece

/-- The result of a scan. A fatal one ended inside a string and has no end mark. -/
structure Scan where
  tokens : List Token
  diagnostics : List Diagnostic
  fatal : Bool
  deriving Repr

/-- Where a scan stands: the line, and the tokens and diagnostics so far. -/
structure Scanner where
  line : Nat
  tokens : Array Token
  diagnostics : Array Diagnostic
  fatal : Bool
  deriving Repr

namespace Scanner

def start : Scanner := ⟨1, #[], #[], false⟩

/-- Takes one piece. A token is on the line where it ends. -/
def step (s : Scanner) (p : Piece) : Scanner :=
  let s := { s with line := s.line + p.newlines }
  match p with
  | .lexeme kind cs =>
    { s with tokens := s.tokens.push ⟨kind, .text (.ofList cs), Piece.literal kind cs, s.line⟩ }
  | .stray _ => { s with diagnostics := s.diagnostics.push ⟨s.line, .line, .unexpectedCharacter⟩ }
  | .unclosed _ =>
    { s with diagnostics := s.diagnostics.push ⟨s.line, .line, .unterminatedString⟩, fatal := true }
  | _ => s

def finish (s : Scanner) : Scan :=
  let tokens := if s.fatal then s.tokens else s.tokens.push (.endAt s.line)
  ⟨tokens.toList, s.diagnostics.toList, s.fatal⟩

end Scanner

def scan (source : String) : Scan :=
  ((Piece.split source.toList).foldl Scanner.step .start).finish

end Lox
