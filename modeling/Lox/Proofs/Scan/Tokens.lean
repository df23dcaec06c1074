import Lox.Token.Scan
import Lox.Proofs.Grammar.Trees
import Lox.Proofs.Parse.Programs

/-!
The tokens of a scan: what they bring to the parser and to the evaluator. A scan that is not fatal ends
in its only end mark.
-/

set_option autoImplicit false

namespace Lox

/-- A lexeme is text; numbers, strings and names have a value of their kind, and no others have one. -/
structure Token.IsScanned (t : Token) : Prop where
  lexeme : ∃ s, t.lexeme = .text s
  number : t.kind = .number → ∃ x, t.literal = .real x
  text : t.kind = .string ∨ t.kind = .identifier → ∃ s, t.literal = .text s
  null : t.kind ∉ [.number, .string, .identifier] → t.literal = .null

theorem tokenSort_isScanned : TokenSort Token.IsScanned where
  whenLeftOut _ := ⟨⟨_, rfl⟩, by simp, by simp, fun _ => rfl⟩

theorem Token.isScanned_endAt (line : Int) : (endAt line).IsScanned :=
  ⟨⟨_, rfl⟩, by simp [endAt], by simp [endAt], fun _ => rfl⟩

theorem Kind.ofWord_ne_eof (s : String) : ofWord s ≠ .eof := by
  have hkinds : ∀ p ∈ keywords, p.2 ≠ .eof := by decide
  unfold ofWord
  cases h : keywords.lookup s with
  | none => simp
  | some k =>
    obtain ⟨before, after, hs, -⟩ := List.lookup_eq_some_iff.1 h
    exact hkinds (s, k) (by rw [hs]; simp)

namespace Piece

/-- No lexeme is an end mark. -/
def isPlain : Piece → Prop
  | .lexeme kind _ => kind ≠ .eof
  | _ => True

theorem isPlain_first (c : Char) (rest : List Char) : (first c rest).1.isPlain := by
  have hsingle : ∀ k, single? c = some k → k ≠ .eof := by
    intro k h
    unfold single? at h
    split at h <;> cases h <;> decide
  have hjoining : ∀ p, joining? c = some p → p.1 ≠ .eof ∧ p.2 ≠ .eof := by
    intro p h
    unfold joining? at h
    split at h <;> cases h <;> decide
  unfold first
  split
  · trivial
  split
  next k h => exact hsingle k h
  split
  next alone joined h => split <;> simp [isPlain, hjoining _ h]
  split
  · split <;> simp [isPlain]
  split
  · split <;> simp [isPlain]
  split
  · simp [isPlain]
  split
  · exact Kind.ofWord_ne_eof _
  · trivial

theorem isPlain_splitOnto {done : Array Piece} (hd : ∀ p ∈ done, p.isPlain) (turns : Nat)
    (cs : List Char) : ∀ p ∈ splitOnto done turns cs, p.isPlain := by
  induction turns generalizing done cs with
  | zero => exact hd
  | succ turns ih =>
    cases cs with
    | nil => exact hd
    | cons c rest =>
      refine ih (fun p hp => ?_) _
      rcases Array.mem_push.1 hp with hp | rfl
      · exact hd p hp
      · exact isPlain_first c rest

theorem isPlain_split (cs : List Char) : ∀ p ∈ split cs, p.isPlain := by
  have hnone : ∀ p ∈ (#[] : Array Piece), p.isPlain := by simp
  intro p hp
  exact isPlain_splitOnto hnone cs.length cs p (by simpa [split] using hp)

end Piece

namespace Scanner

/-- What holds of a scanner after each piece. -/
structure Sound (s : Scanner) : Prop where
  scanned : ∀ t ∈ s.tokens, t.IsScanned
  noEnd : ∀ t ∈ s.tokens, t.kind ≠ .eof
  fatal : s.fatal = true → s.diagnostics ≠ #[]

theorem sound_start : Sound .start := ⟨by simp [start], by simp [start], by simp [start]⟩

theorem isScanned_lexeme (kind : Kind) (cs : List Char) (line : Int) :
    Token.IsScanned ⟨kind, .text (.ofList cs), Piece.literal kind cs, line⟩ := by
  refine ⟨⟨_, rfl⟩, ?_, ?_, ?_⟩
  · rintro rfl
    exact ⟨_, rfl⟩
  · rintro (rfl | rfl) <;> exact ⟨_, rfl⟩
  · intro hk
    unfold Piece.literal
    split <;> simp_all

theorem Sound.step {s : Scanner} (h : s.Sound) {p : Piece} (hp : p.isPlain) : (s.step p).Sound := by
  cases p with
  | lexeme kind cs =>
    refine ⟨fun t ht => ?_, fun t ht => ?_, h.fatal⟩
    · rcases Array.mem_push.1 ht with ht | rfl
      · exact h.scanned t ht
      · exact isScanned_lexeme kind cs _
    · rcases Array.mem_push.1 ht with ht | rfl
      · exact h.noEnd t ht
      · exact hp
  | stray c => exact ⟨h.scanned, h.noEnd, fun _ => by simp [Scanner.step]⟩
  | unclosed cs => exact ⟨h.scanned, h.noEnd, fun _ => by simp [Scanner.step]⟩
  | gap c => exact ⟨h.scanned, h.noEnd, h.fatal⟩
  | comment cs => exact ⟨h.scanned, h.noEnd, h.fatal⟩

theorem Sound.foldl {s : Scanner} (h : s.Sound) {ps : List Piece} (hp : ∀ p ∈ ps, p.isPlain) :
    (ps.foldl Scanner.step s).Sound := by
  induction ps generalizing s with
  | nil => exact h
  | cons p ps ih => exact ih (h.step (hp p (by simp))) fun q hq => hp q (by simp [hq])

end Scanner

theorem sound_scanner (source : String) :
    ((Piece.split source.toList).foldl Scanner.step .start).Sound :=
  Scanner.sound_start.foldl (Piece.isPlain_split _)

theorem isScanned_scan (source : String) : ∀ t ∈ (scan source).tokens, t.IsScanned := by
  have h := sound_scanner source
  intro t ht
  simp only [scan, Scanner.finish] at ht
  split at ht
  · exact h.scanned t (by simpa using ht)
  · rcases Array.mem_push.1 (Array.mem_toList_iff.1 ht) with ht | rfl
    · exact h.scanned t ht
    · exact Token.isScanned_endAt _

theorem diagnostics_ne_nil_of_fatal {source : String} (hf : (scan source).fatal = true) :
    (scan source).diagnostics ≠ [] := by
  have h := (sound_scanner source).fatal hf
  simpa [scan, Scanner.finish] using h

theorem endsOnce_scan {source : String} (hf : (scan source).fatal = false) :
    EndsOnce (scan source).tokens := by
  have h := sound_scanner source
  change (((Piece.split source.toList).foldl Scanner.step .start).fatal) = false at hf
  rw [scan]
  generalize (Piece.split source.toList).foldl Scanner.step .start = s at h hf
  refine ⟨s.tokens.toList, .endAt s.line, by simp [Scanner.finish, hf], rfl, fun t ht => ?_⟩
  exact h.noEnd t (by simpa using ht)

end Lox
