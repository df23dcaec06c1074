import Lox.Proofs.Scan.Tokens

/-!
The lines of a scan. Main statements: tokens and diagnostics are on lines that the source has, and no
token is on a line before that of an earlier one.
-/

set_option autoImplicit false

namespace Lox

/-- How many lines a text has, a last one without an end included. -/
def lineCount (cs : List Char) : Nat := cs.count '\n' + 1

/-- Tokens in the order of their lines. -/
def InOrder (ts : List Token) : Prop := ts.Pairwise fun t u => t.line ≤ u.line

theorem InOrder.push {ts : List Token} (h : InOrder ts) {u : Token} (hu : ∀ t ∈ ts, t.line ≤ u.line) :
    InOrder (ts ++ [u]) :=
  List.pairwise_append.2 ⟨h, List.pairwise_singleton _ _, by simpa using hu⟩

namespace Scanner

/-- What was found so far is on a line from the first to the one that the scanner is on. -/
structure Lined (s : Scanner) : Prop where
  pos : 1 ≤ s.line
  tokens : ∀ t ∈ s.tokens, 1 ≤ t.line ∧ t.line ≤ s.line
  diagnostics : ∀ d ∈ s.diagnostics, 1 ≤ d.line ∧ d.line ≤ s.line

theorem lined_start : Lined .start := ⟨Nat.le_refl _, by simp [start], by simp [start]⟩

theorem line_step (s : Scanner) (p : Piece) : (s.step p).line = s.line + p.newlines := by
  cases p <;> rfl

theorem Lined.step {s : Scanner} (h : s.Lined) (p : Piece) : (s.step p).Lined := by
  have hpos := h.pos
  have htokens : ∀ t ∈ s.tokens, 1 ≤ t.line ∧ t.line ≤ (s.line + p.newlines : Nat) := fun t ht => by
    have := h.tokens t ht
    omega
  have hdiagnostics : ∀ d ∈ s.diagnostics, 1 ≤ d.line ∧ d.line ≤ (s.line + p.newlines : Nat) :=
    fun d hd => by
      have := h.diagnostics d hd
      omega
  cases p with
  | lexeme kind cs =>
    refine ⟨by rw [line_step]; omega, fun t ht => ?_, hdiagnostics⟩
    rcases Array.mem_push.1 ht with ht | rfl
    · exact htokens t ht
    · simp [Scanner.step]
      omega
  | stray c | unclosed cs =>
    refine ⟨by rw [line_step]; omega, htokens, fun d hd => ?_⟩
    rcases Array.mem_push.1 hd with hd | rfl
    · exact hdiagnostics d hd
    · simp [Scanner.step]
      omega
  | gap c | comment cs => exact ⟨by rw [line_step]; omega, htokens, hdiagnostics⟩

theorem Lined.foldl {s : Scanner} (h : s.Lined) (ps : List Piece) :
    (ps.foldl Scanner.step s).Lined := by
  induction ps generalizing s with
  | nil => exact h
  | cons p ps ih => exact ih (h.step p)

theorem Lined.inOrder_step {s : Scanner} (h : s.Lined) (ho : InOrder s.tokens.toList) (p : Piece) :
    InOrder (s.step p).tokens.toList := by
  cases p with
  | lexeme kind cs =>
    simp only [Scanner.step, Array.toList_push]
    refine ho.push fun t ht => ?_
    have := (h.tokens t (by simpa using ht)).2
    push_cast
    omega
  | _ => exact ho

theorem Lined.inOrder_foldl {s : Scanner} (h : s.Lined) (ho : InOrder s.tokens.toList)
    (ps : List Piece) : InOrder (ps.foldl Scanner.step s).tokens.toList := by
  induction ps generalizing s with
  | nil => exact ho
  | cons p ps ih => exact ih (h.step p) (h.inOrder_step ho p)

theorem line_foldl (s : Scanner) (ps : List Piece) :
    (ps.foldl Scanner.step s).line = s.line + (ps.flatMap Piece.text).count '\n' := by
  induction ps generalizing s with
  | nil => rfl
  | cons p ps ih =>
    rw [List.foldl_cons, ih, line_step, List.flatMap_cons, List.count_append, Piece.newlines]
    omega

end Scanner

/-- A scan ends on the last line of the source, all it found is on a line up to there. -/
theorem lines_scan (source : String) :
    (∀ t ∈ (scan source).tokens, 1 ≤ t.line ∧ t.line ≤ lineCount source.toList) ∧
      (∀ d ∈ (scan source).diagnostics, 1 ≤ d.line ∧ d.line ≤ lineCount source.toList) := by
  have h := Scanner.lined_start.foldl (Piece.split source.toList)
  have hline := Scanner.line_foldl .start (Piece.split source.toList)
  rw [Piece.flatMap_split] at hline
  unfold scan
  generalize (Piece.split source.toList).foldl Scanner.step .start = s at h hline
  have hcount : s.line = lineCount source.toList := by
    rw [hline, lineCount, Nat.add_comm]
    rfl
  rw [← hcount]
  refine ⟨fun t ht => ?_, fun d hd => h.diagnostics d (by simpa [Scanner.finish] using hd)⟩
  simp only [Scanner.finish] at ht
  split at ht
  · exact h.tokens t (by simpa using ht)
  · rcases Array.mem_push.1 (Array.mem_toList_iff.1 ht) with ht | rfl
    · exact h.tokens t ht
    · have := h.pos
      simp [Token.endAt]
      omega

/-- A scan gives its tokens in the order of their lines. -/
theorem inOrder_scan (source : String) : InOrder (scan source).tokens := by
  have h := Scanner.lined_start.foldl (Piece.split source.toList)
  have ho := Scanner.lined_start.inOrder_foldl .nil (Piece.split source.toList)
  unfold scan
  generalize (Piece.split source.toList).foldl Scanner.step .start = s at h ho
  simp only [Scanner.finish]
  split
  · exact ho
  · rw [Array.toList_push]
    exact ho.push fun t ht => (h.tokens t (by simpa using ht)).2

end Lox
