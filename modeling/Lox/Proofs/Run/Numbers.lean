import Lox.Proofs.Decimal.Plain
import Lox.Proofs.Parse.Steps
import Lox.Proofs.Scan.Partition
import Lox.Run.Evaluate

/-!
Printed numbers as programs. Main statement: what a program prints for a finite number is an expression,
without an exponent and without diagnostics, and its value is that number, of either sign.
-/

set_option autoImplicit false

namespace Lox

open Decimal

namespace Parse

variable {source : Source} {p p' : Parser} {n : Node} {frames : Nat}

/-- At the end there is nothing to accept. -/
theorem accept?_of_nil (hl : source.last.kind = .eof) {kinds : List Kind} (hk : .eof ∉ kinds)
    (hp : p.pending = []) : accept? source kinds p = (.ok none, p) := by
  rw [accept?_apply, hp, List.headD_nil, hl, if_neg (by simpa using hk)]

theorem extend_of_none {step : Node → Parse (Option Node)} (h : step n p = (.ok none, p))
    (turns : Nat) : extend step turns n p = (.ok n, p) := by
  cases turns with
  | zero => rfl
  | succ turns =>
    rw [extend, bind_apply, h]
    rfl

/-- An operand of the tightest level that goes on to the end is one of every level. -/
theorem operand_to_end (hl : source.last.kind = .eof) {levels : List Level}
    (hk : ∀ level ∈ levels, .eof ∉ level.operators)
    (h : operand source frames [] p = (.ok n, p')) (hp : p'.pending = []) :
    operand source (frames + levels.length) levels p = (.ok n, p') := by
  induction levels with
  | nil => exact h
  | cons level tighter ih =>
    obtain ⟨hlevel, htighter⟩ := List.forall_mem_cons.1 hk
    rw [List.length_cons, ← Nat.add_assoc, operand, bind_apply, ih htighter]
    refine extend_of_none ?_ source.turns
    rw [bind_apply, accept?_of_nil hl hlevel hp]
    rfl

theorem expression_to_end (hl : source.last.kind = .eof)
    (h : operand source frames [] p = (.ok n, p')) (hp : p'.pending = []) :
    expression source (frames + 8) p = (.ok n, p') := by
  have hk : ∀ level ∈ Level.all, .eof ∉ level.operators := by decide
  have hoperand : operand source (frames + 6) Level.all p = (.ok n, p') := operand_to_end hl hk h hp
  change assignment source (frames + 7) p = (.ok n, p')
  rw [assignment, bind_apply, hoperand]
  change (accept? source [.equal] >>= _) p' = _
  rw [bind_apply, accept?_of_nil hl (by decide) hp]
  rfl

/-- A number at the end is an operand by itself. -/
theorem operand_number (hl : source.last.kind = .eof) {t : Token} (ht : t.kind = .number)
    (hp : p.pending = [t]) (frames : Nat) :
    operand source (frames + 3) [] p = (.ok (.literal (.token t)), { p with pending := [] }) := by
  have hliteral : t.kind.isLiteral = true := by rw [ht]; rfl
  have hprimary : primary source (frames + 1) p =
      (.ok (.literal (.token t)), { p with pending := [] }) := by
    simp only [primary, bind_apply, peek_apply, advance_apply, hp, List.headD_cons, List.tail_cons,
      if_pos hliteral, pure_apply]
  have hcall : call source (frames + 2) p =
      (.ok (.literal (.token t)), { p with pending := [] }) := by
    rw [call, bind_apply, hprimary]
    refine extend_of_none ?_ source.turns
    rw [bind_apply, accept?_of_nil hl (by decide) rfl]
    rfl
  rw [operand, bind_apply, accept?_apply, hp, List.headD_cons, ht, if_neg (by decide)]
  exact hcall

/-- A sign before an operand is an operand. -/
theorem operand_minus {t : Token} {rest : List Token} (ht : t.kind = .minus)
    (hp : p.pending = t :: rest)
    (h : operand source frames [] { p with pending := rest } = (.ok n, p')) :
    operand source (frames + 1) [] p = (.ok (.unary (.token t) n), p') := by
  rw [operand, bind_apply, accept?_apply, hp, List.headD_cons, ht, if_pos (by decide)]
  change (operand source frames [] >>= _ : Parse Node) { p with pending := rest } = _
  rw [bind_apply, h]
  rfl

end Parse

namespace Decimal.Spelling.IsPlain

variable {s : Spelling}

/-- The scanner takes all of it for a number, and for the one that it denotes. -/
theorem lexeme (h : s.IsPlain) : Lexical.Lexeme .number (.real s.decimal.toFloat) s.text [] := by
  have hdecimal : s.decimal = ofParts s.whole s.fraction 0 := by
    rw [decimal, h.exponent, Option.getD_none]
  have hrun : ∀ {ds : List Char}, (∀ c ∈ ds, isDigit c = true) → Lexical.Run isDigit ds [] :=
    fun hds => ⟨hds, by simp⟩
  rw [hdecimal, h.text_eq]
  split
  next hf =>
    have hpoint : ∀ d rest, [] = '.' :: d :: rest → isDigit d = false := by simp
    rw [hf]
    exact .whole h.ne_nil (hrun h.whole) hpoint (value_ofParts_nil _ ▸ isNearest_toBits _)
  next hf =>
    exact .pointed h.ne_nil h.whole hf (hrun h.fraction) (value_ofParts _ _ ▸ isNearest_toBits _)

theorem newline_not_mem (h : s.IsPlain) : '\n' ∉ s.text := by
  have hdigits : ∀ {ds : List Char}, (∀ c ∈ ds, isDigit c = true) → '\n' ∉ ds :=
    fun hds hc => absurd (hds _ hc) (by decide)
  have hwhole := hdigits h.whole
  have hfraction := hdigits h.fraction
  rw [h.text_eq]
  split <;> simp [hwhole, hfraction]

end Decimal.Spelling.IsPlain

/-- The sign of a negative number, on the first line. -/
def Token.minusSign : Token := ⟨.minus, .text "-", .null, 1⟩

def Token.ofSpelling (s : Spelling) : Token :=
  ⟨.number, .text (.ofList s.text), .real s.decimal.toFloat, 1⟩

def Node.ofSpelling (negative : Bool) (s : Spelling) : Node :=
  let digits := Node.literal (.token (.ofSpelling s))
  if negative then .unary (.token .minusSign) digits else digits

def signedTokens (negative : Bool) (s : Spelling) : List Token :=
  (if negative then [.minusSign] else []) ++ [.ofSpelling s, .endAt 1]

theorem scan_signed (negative : Bool) {s : Spelling} (h : s.IsPlain) :
    scan (signed negative s.text) = ⟨signedTokens negative s, [], false⟩ := by
  have hcount : s.text.count '\n' = 0 := List.count_eq_zero.2 h.newline_not_mem
  have hread : ∀ done, done.count '\n' = 0 →
      Lexical.Reads done s.text [.lexeme .number s.text] [.ofSpelling s] [] [] := by
    intro done hdone
    have hline : lineCount (done ++ s.text) = 1 := by
      rw [lineCount, List.count_append, hdone, hcount]
    have hend : Lexical.Reads (done ++ s.text) [] [] [] [] [] := .stop
    have hreads := Lexical.Reads.token h.lexeme hend
    rwa [List.append_nil, hline] at hreads
  have hlast : ∀ cs, cs.count '\n' = 0 → lineCount cs = 1 := fun cs hcs => by rw [lineCount, hcs]
  cases negative with
  | false =>
    have hreading := Lexical.Reading.whole (hread [] rfl)
    rw [hlast _ hcount] at hreading
    exact Lexical.Reading.scan (by rwa [signed, String.toList_ofList])
  | true =>
    have hsign : Lexical.Lexeme .minus .null ['-'] s.text := .single rfl
    have hreading := Lexical.Reading.whole (.token hsign (hread ['-'] rfl))
    rw [hlast (['-'] ++ s.text) (by simp [hcount])] at hreading
    exact Lexical.Reading.scan (by rw [signed, String.toList_ofList]; exact hreading)

theorem expression_signedTokens (negative : Bool) (s : Spelling) (frames : Nat) :
    Parse.expression (.ofTokens (signedTokens negative s)) (frames + 12)
      (.ofTokens (signedTokens negative s)) = (.ok (.ofSpelling negative s), ⟨[], #[], 0⟩) := by
  cases negative with
  | false => exact Parse.expression_to_end rfl (Parse.operand_number rfl rfl rfl (frames + 1)) rfl
  | true =>
    have hnumber : Parse.operand (.ofTokens (signedTokens true s)) (frames + 3) []
        ⟨[.ofSpelling s], #[], 0⟩ = (.ok (.literal (.token (.ofSpelling s))), ⟨[], #[], 0⟩) :=
      Parse.operand_number rfl rfl rfl frames
    exact Parse.expression_to_end rfl (Parse.operand_minus rfl rfl hnumber) rfl

theorem evaluate_ofSpelling (negative : Bool) (sp : Spelling) (s : Settings) (frames : Nat)
    (m : Machine) : Run.evaluate s (frames + 2) (.ofSpelling negative sp) m =
      (.ok (.number (if negative then -sp.decimal.toFloat else sp.decimal.toFloat)), m) := by
  cases negative with
  | false => rfl
  | true => rfl

/-- The text is an expression with nothing wrong in it, and its value is the same on every machine, which
it leaves as it is. -/
def IsExpressionOf (frames : Nat) (text : String) (v : Value) : Prop :=
  (scan text).diagnostics = [] ∧ (scan text).fatal = false ∧
  ∃ n p, Parse.expression (.ofTokens (scan text).tokens) frames (.ofTokens (scan text).tokens) =
      (.ok n, p) ∧ p.pending = [] ∧ p.diagnostics = #[] ∧
    ∀ s m, Run.evaluate s frames n m = (.ok v, m)

theorem isExpressionOf_signed (negative : Bool) {s : Spelling} (h : s.IsPlain) (frames : Nat) :
    IsExpressionOf (frames + 12) (signed negative s.text)
      (.number (if negative then -s.decimal.toFloat else s.decimal.toFloat)) := by
  unfold IsExpressionOf
  rw [scan_signed negative h]
  exact ⟨rfl, rfl, _, _, expression_signedTokens negative s frames, rfl, rfl, fun settings m =>
    evaluate_ofSpelling negative s settings (frames + 10) m⟩

/-- A finite double is printed as its sign and digits, with a point and digits after it if there is a
fraction, and never with an exponent. They denote the double itself if it is whole, and what its compact
form denotes otherwise. The text is an expression, and its value is the double, zeros with their signs
included. -/
theorem printed_number_reads_back {x : Float} {negative : Bool} {m : Nat} {e : Int}
    (h : Binary.ofFloat x = .finite negative m e) :
    ∃ s : Spelling, s.IsPlain ∧ plain x = signed negative s.text ∧
      ((∃ n : Nat, (m : ℚ) * 2 ^ e = n) →
        s.fraction = [] ∧ s.decimal.value = m * 2 ^ e) ∧
      ((¬ ∃ n : Nat, (m : ℚ) * 2 ^ e = n) → ∃ t : Spelling, t.IsProper ∧
        written x = signed negative t.text ∧ t.decimal.value = s.decimal.value) ∧
      ∀ frames, 12 ≤ frames → IsExpressionOf frames (plain x) (.number x) := by
  refine ⟨plainSpelling m e, isPlain_plainSpelling m e, plain_eq h,
    fun ⟨n, hn⟩ => plainSpelling_of_integer hn, fun hbroken => ?_, fun frames hframes => ?_⟩
  · have hm : m ≠ 0 := by
      rintro rfl
      exact hbroken ⟨0, by simp⟩
    obtain ⟨hproper, hwritten, hvalue⟩ := written_eq h hm
    exact ⟨_, hproper, hwritten, hvalue.trans (value_plainSpelling hbroken).symm⟩
  · obtain ⟨frames, rfl⟩ := Nat.exists_eq_add_of_le' hframes
    have hexpression := isExpressionOf_signed negative (isPlain_plainSpelling m e) frames
    rwa [toFloat_plainSpelling h, ← plain_eq h] at hexpression

/-- A number with a fraction, and the zero below zero. -/
theorem printed_number_reads_back_negative :
    (Binary.ofFloat (-2.5) = .finite true 5629499534213120 (-51) ∧
      Binary.ofFloat (-0.0) = .finite true 0 (-1074)) ∧
    (plain (-2.5) = "-2.5" ∧ IsExpressionOf 12 "-2.5" (.number (-2.5))) ∧
    plain (-0.0) = "-0" ∧ IsExpressionOf 12 "-0" (.number (-0.0)) := by
  have hbroken : Binary.ofFloat (-2.5) = .finite true 5629499534213120 (-51) := by decide +kernel
  have hzero : Binary.ofFloat (-0.0) = .finite true 0 (-1074) := by decide +kernel
  have htext : plain (-2.5) = "-2.5" := by decide +kernel
  have htext' : plain (-0.0) = "-0" := by decide +kernel
  obtain ⟨-, -, -, -, -, hreads⟩ := printed_number_reads_back hbroken
  obtain ⟨-, -, -, -, -, hreads'⟩ := printed_number_reads_back hzero
  exact ⟨⟨hbroken, hzero⟩, ⟨htext, htext ▸ hreads 12 le_rfl⟩, htext', htext' ▸ hreads' 12 le_rfl⟩

end Lox
