import Lox.Json.Reader
import Lox.Json.Writer
import Lox.Proofs.Decimal.Bits
import Lox.Proofs.Decimal.Compact

/-!
Numbers in JSON text. Main statements: the text of an integer and the text of a double are read back
as the integer and as the double, whatever ends a number follows them.
-/

set_option autoImplicit false

namespace Lox.Json

open Decimal

/-- What no number goes on with. -/
def EndsNumber (rest : List Char) : Prop :=
  ∀ c, rest.head? = some c → isDigit c = false ∧ c ∉ ['.', 'e', 'E']

theorem takeWhile_digits {ds rest : List Char} (hds : ∀ c ∈ ds, isDigit c = true)
    (hrest : ∀ c, rest.head? = some c → isDigit c = false) :
    (ds ++ rest).takeWhile isDigit = ds ∧ (ds ++ rest).dropWhile isDigit = rest := by
  induction ds with
  | nil =>
    cases rest with
    | nil => simp
    | cons c rest => simp [hrest c rfl]
  | cons c ds ih =>
    obtain ⟨ht, hd⟩ := ih fun c hc => hds c (List.mem_cons_of_mem _ hc)
    simp [hds c List.mem_cons_self, ht, hd]

theorem readFraction_pointed (fraction : List Char) {rest : List Char}
    (hds : ∀ c ∈ fraction, isDigit c = true)
    (hrest : ∀ c, rest.head? = some c → isDigit c = false ∧ c ≠ '.') :
    readFraction (Spelling.pointed fraction ++ rest) = (fraction, rest) := by
  unfold Spelling.pointed
  split
  next hnil =>
    subst hnil
    cases rest with
    | nil => rfl
    | cons c rest =>
      unfold readFraction
      split
      next heq =>
        injection heq with hc
        exact absurd hc (hrest c rfl).2
      next => rfl
  next hne =>
    obtain ⟨ht, hd⟩ := takeWhile_digits hds fun c hc => (hrest c hc).1
    simp [readFraction, ht, hd, hne]

theorem readExponent_of_none {rest : List Char} (h : EndsNumber rest) :
    readExponent rest = (none, rest) := by
  cases rest with
  | nil => rfl
  | cons c rest =>
    have hc := (h c rfl).2
    simp only [List.mem_cons, not_or] at hc
    simp [readExponent, hc]

theorem readExponent_exponentText (e : Int) {rest : List Char}
    (h : ∀ c, rest.head? = some c → isDigit c = false) :
    readExponent (exponentText e ++ rest) = (some e, rest) := by
  have hdigits : ∀ c ∈ digitsOf e.natAbs, isDigit c = true := fun c => isDigit_of_mem_digitsOf
  have hvalue := ofDigits_digitsOf e.natAbs
  have hne := digitsOf_ne_nil e.natAbs
  obtain ⟨ds, htext, hds, hd, hdne⟩ : ∃ ds : List Char,
      exponentText e = 'e' :: (if e < 0 then '-' else '+') :: ds ∧ ofDigits ds = e.natAbs ∧
      (∀ c ∈ ds, isDigit c = true) ∧ ds ≠ [] := by
    refine ⟨_, rfl, ?_, ?_, ?_⟩
    · split
      · exact (ofDigits_zeros_append 1 _).trans hvalue
      · exact hvalue
    · split
      · exact List.forall_mem_cons.2 ⟨by decide, hdigits⟩
      · exact hdigits
    · split
      · simp
      · exact hne
  obtain ⟨ht, hdrop⟩ := takeWhile_digits hd h
  rw [htext]
  by_cases he : e < 0
  · have hvalue : (-1 : Int) * e.natAbs = e := by omega
    simp only [he, ↓reduceIte, List.cons_append, readExponent, ht, hdrop, hds, hvalue]
    simp [hdne]
  · have hvalue : (1 : Int) * e.natAbs = e := by omega
    simp only [he, ↓reduceIte, List.cons_append, readExponent, ht, hdrop, hds, hvalue]
    simp [hdne]

theorem readExponent_marked (exponent : Option Int) {rest : List Char} (h : EndsNumber rest) :
    readExponent (Spelling.marked exponent ++ rest) = (exponent, rest) := by
  cases exponent with
  | none => exact readExponent_of_none h
  | some e => exact readExponent_exponentText e fun c hc => (h c hc).1

theorem head?_marked (exponent : Option Int) {rest : List Char} (h : EndsNumber rest) (c : Char)
    (hc : (Spelling.marked exponent ++ rest).head? = some c) : isDigit c = false ∧ c ≠ '.' := by
  cases exponent with
  | none =>
    obtain ⟨hdigit, hmark⟩ := h c hc
    simp only [List.mem_cons, not_or] at hmark
    exact ⟨hdigit, hmark.1⟩
  | some e =>
    obtain rfl : 'e' = c := Option.some.inj hc
    decide

theorem head?_pointed (fraction : List Char) {rest : List Char}
    (h : ∀ c, rest.head? = some c → isDigit c = false ∧ c ≠ '.') (c : Char)
    (hc : (Spelling.pointed fraction ++ rest).head? = some c) : isDigit c = false := by
  unfold Spelling.pointed at hc
  split at hc
  · exact (h c hc).1
  · obtain rfl : '.' = c := Option.some.inj hc
    decide

/-- The digits before a point or an exponent. -/
def wholeOf (cs : List Char) : List Char :=
  match cs with
  | '0' :: _ => ['0']
  | _ => cs.takeWhile isDigit

theorem wholeOf_append {ds rest : List Char} (hne : ds ≠ []) (hds : ∀ c ∈ ds, isDigit c = true)
    (hlead : ds.head? = some '0' → ds = ['0'])
    (hrest : ∀ c, rest.head? = some c → isDigit c = false) : wholeOf (ds ++ rest) = ds := by
  cases ds with
  | nil => exact absurd rfl hne
  | cons c ds =>
    unfold wholeOf
    split
    next heq =>
      injection heq with hc
      rw [hlead (by simp [hc])]
    next => exact (takeWhile_digits hds hrest).1

theorem readNumber_eq (negative : Bool) (cs : List Char) :
    readNumber negative cs =
      let (fraction, rest) := readFraction (cs.drop (wholeOf cs).length)
      let (exponent, rest) := readExponent rest
      if (wholeOf cs).isEmpty then .error .malformed
      else if fraction.isEmpty && exponent.isNone then
        if Text.mostIntegerDigits < (wholeOf cs).length then .error .integerTooLong
        else
          let n : Int := ofDigits (wholeOf cs)
          .ok (.integer (if negative then -n else n), rest)
      else
        let x := (ofParts (wholeOf cs) fraction (exponent.getD 0)).toFloat
        .ok (.real (if negative then -x else x), rest) :=
  rfl

theorem readNumber_text (negative : Bool) {s : Spelling} (hs : s.IsProper) {rest : List Char}
    (h : EndsNumber rest) :
    readNumber negative (s.text ++ rest) =
      .ok (.real (if negative then -s.decimal.toFloat else s.decimal.toFloat), rest) := by
  have hmarked := head?_marked s.exponent h
  have hwhole := wholeOf_append hs.ne_nil hs.whole hs.lead (head?_pointed s.fraction hmarked)
  unfold Spelling.text
  simp only [List.append_assoc, readNumber_eq, hwhole, List.drop_left,
    readFraction_pointed s.fraction hs.fraction hmarked, readExponent_marked s.exponent h]
  have hreal : (s.fraction.isEmpty && s.exponent.isNone) = false := by
    rcases hs.real with hf | he
    · simp [hf]
    · simp [Option.isSome_iff_ne_none.2 he]
  simp [hs.ne_nil, hreal, Spelling.decimal]

theorem readNumber_digitsOf (negative : Bool) {n : Nat} {rest : List Char}
    (hn : (digitsOf n).length ≤ Text.mostIntegerDigits) (h : EndsNumber rest) :
    readNumber negative (digitsOf n ++ rest) =
      .ok (.integer (if negative then -(n : Int) else n), rest) := by
  have hdigits : ∀ c ∈ digitsOf n, isDigit c = true := fun c => isDigit_of_mem_digitsOf
  have hlead : (digitsOf n).head? = some '0' → digitsOf n = ['0'] := fun hc => by
    rcases Nat.eq_zero_or_pos n with rfl | hpos
    · rfl
    · exact absurd hc (head?_digitsOf hpos)
  have hwhole := wholeOf_append (digitsOf_ne_nil n) hdigits hlead fun c hc => (h c hc).1
  have hfraction : readFraction rest = ([], rest) :=
    readFraction_pointed [] (by simp) (head?_marked none h)
  simp only [readNumber_eq, hwhole, List.drop_left, hfraction, readExponent_of_none h,
    ofDigits_digitsOf]
  simp [digitsOf_ne_nil, Nat.not_lt.2 hn]

theorem ne_of_isDigit {c k : Char} (hc : isDigit c = true) (hk : isDigit k = false) : c ≠ k := by
  rintro rfl
  rw [hk] at hc
  cases hc

theorem readValue_digit (turns limit : Nat) {c : Char} (hc : isDigit c = true) (cs : List Char) :
    readValue turns limit (c :: cs) = readNumber false (c :: cs) := by
  have hne : ∀ k, isDigit k = false → c ≠ k := fun k => ne_of_isDigit hc
  unfold readValue
  split
  case h_11 => rfl
  all_goals
    rename_i heq
    injection heq with h
    exact absurd h (hne _ (by decide))

theorem readValue_minus (turns limit : Nat) {c : Char} (hc : isDigit c = true) (cs : List Char) :
    readValue turns limit ('-' :: c :: cs) = readNumber true (c :: cs) := by
  have hne : ∀ k, isDigit k = false → c ≠ k := fun k => ne_of_isDigit hc
  unfold readValue
  split
  case h_7 rest heq =>
    simp only [List.cons.injEq] at heq
    exact absurd heq.2.1 (hne _ (by decide))
  case h_8 rest _ heq =>
    injection heq with _ h
    rw [h]
  case h_11 h _ _ => exact absurd rfl (h _)
  all_goals
    rename_i heq
    injection heq with h
    exact absurd h (by decide)

/-- The text of a value's sign and digits begins with neither a quote nor a letter. -/
theorem readValue_signed (turns limit : Nat) (negative : Bool) {cs : List Char} {rest : List Char}
    (h : ∀ c, cs.head? = some c → isDigit c = true) (hne : cs ≠ []) :
    readValue turns limit ((signed negative cs).toList ++ rest) =
      readNumber negative (cs ++ rest) := by
  cases cs with
  | nil => exact absurd rfl hne
  | cons c cs =>
    have hc := h c rfl
    cases negative with
    | false => simpa [signed] using readValue_digit turns limit hc (cs ++ rest)
    | true => simpa [signed] using readValue_minus turns limit hc (cs ++ rest)

theorem toList_toString (i : Int) :
    (toString i).toList = (signed (decide (i < 0)) (digitsOf i.natAbs)).toList := by
  cases i with
  | ofNat n =>
    change n.repr.toList = _
    rw [Nat.toList_repr]
    simp [signed, digitsOf]
  | negSucc n =>
    change ("-" ++ (n + 1).repr).toList = _
    rw [String.toList_append, Nat.toList_repr]
    simp [signed, digitsOf]

theorem readValue_integer (turns limit : Nat) {i : Int} {rest : List Char}
    (hi : (digitsOf i.natAbs).length ≤ Text.mostIntegerDigits) (h : EndsNumber rest) :
    readValue turns limit ((toString i).toList ++ rest) = .ok (.integer i, rest) := by
  have hhead : ∀ c, (digitsOf i.natAbs).head? = some c → isDigit c = true := fun c hc =>
    isDigit_of_mem_digitsOf (List.mem_of_mem_head? hc)
  have hvalue : (if decide (i < 0) = true then -(i.natAbs : Int) else i.natAbs) = i := by
    simp only [decide_eq_true_eq]
    split <;> omega
  rw [toList_toString, readValue_signed turns limit _ hhead (digitsOf_ne_nil _),
    readNumber_digitsOf _ hi h, hvalue]

theorem readValue_spelling (turns limit : Nat) (negative : Bool) {s : Spelling} (hs : s.IsProper)
    {rest : List Char} (h : EndsNumber rest) :
    readValue turns limit ((signed negative s.text).toList ++ rest) =
      .ok (.real (if negative then -s.decimal.toFloat else s.decimal.toFloat), rest) := by
  have hne : s.text ≠ [] := by simp [Spelling.text, hs.ne_nil]
  have hhead : ∀ c, s.text.head? = some c → isDigit c = true := fun c hc => by
    cases hw : s.whole with
    | nil => exact absurd hw hs.ne_nil
    | cons d ds =>
      obtain rfl : d = c := by simpa [Spelling.text, hw] using hc
      exact hs.whole d (by simp [hw])
  rw [readValue_signed turns limit negative hhead hne, readNumber_text negative hs h]

/-- A double is read back, one that is no number included. -/
theorem readValue_real (turns limit : Nat) (x : Float) {rest : List Char} (h : EndsNumber rest) :
    readValue turns limit ((realText x).toList ++ rest) = .ok (.real x, rest) := by
  cases hx : Binary.ofFloat x with
  | nan =>
    have htext : realText x = "NaN" := by simp [realText, hx]
    rw [htext, eq_of_nan hx]
    simp [readValue]
  | infinite negative =>
    have htext : realText x = if negative then "-Infinity" else "Infinity" := by simp [realText, hx]
    rw [htext, eq_of_infinite hx]
    cases negative <;> simp [readValue]
  | finite negative m e =>
    have htext : realText x = written x := by simp [realText, hx]
    rw [htext]
    unfold written
    simp only [hx]
    rcases Nat.eq_zero_or_pos m with rfl | hm
    · -- Zero is no decimal of its own and is spelt out.
      have hzero : Spelling.IsProper ⟨['0'], ['0'], none⟩ := by
        constructor <;> simp <;> decide
      have hread := readValue_spelling turns limit negative hzero h
      rw [toFloat_of_zero hx rfl] at hread
      exact hread
    · have hne := Nat.ne_of_gt hm
      have hproper := isProper_spelling (digits_shortest_pos hx hne)
      have hread := readValue_spelling turns limit negative hproper h
      rw [text_spelling, toFloat_of_value_eq hx hne (value_spelling _)] at hread
      simpa using hread

end Lox.Json
