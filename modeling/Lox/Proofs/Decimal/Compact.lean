import Lox.Proofs.Decimal.Reading

/-!
The compact form of a decimal, taken apart as readers take it apart. Main statement: its parts denote
the number that the decimal denotes.
-/

set_option autoImplicit false

namespace Lox.Decimal

/-- The parts of a written number. -/
structure Spelling where
  whole : List Char
  fraction : List Char
  exponent : Option Int

namespace Spelling

def pointed (fraction : List Char) : List Char :=
  if fraction = [] then [] else '.' :: fraction

def marked : Option Int → List Char
  | none => []
  | some e => exponentText e

def text (s : Spelling) : List Char := s.whole ++ (pointed s.fraction ++ marked s.exponent)

def decimal (s : Spelling) : Decimal := ofParts s.whole s.fraction (s.exponent.getD 0)

/-- Digits with no zero leading them, and more than an integer has. -/
structure IsProper (s : Spelling) : Prop where
  ne_nil : s.whole ≠ []
  whole : ∀ c ∈ s.whole, isDigit c = true
  fraction : ∀ c ∈ s.fraction, isDigit c = true
  lead : s.whole.head? = some '0' → s.whole = ['0']
  real : s.fraction ≠ [] ∨ s.exponent ≠ none

/-- Digits, and with a fraction a point and more digits, but no exponent. -/
structure IsPlain (s : Spelling) : Prop where
  ne_nil : s.whole ≠ []
  whole : ∀ c ∈ s.whole, isDigit c = true
  fraction : ∀ c ∈ s.fraction, isDigit c = true
  exponent : s.exponent = none

/-- The parts with a fraction, which is a zero if there was none. -/
def withFraction (s : Spelling) : Spelling :=
  if s.fraction = [] then { s with fraction := ['0'] } else s

end Spelling

def spelling (d : Decimal) : Spelling :=
  let ds := digitsOf d.digits
  if d.isPositional then
    if d.point ≤ 0 then ⟨['0'], List.replicate (-d.point).toNat '0' ++ ds, none⟩
    else if ds.length ≤ d.point.toNat then
      ⟨ds ++ List.replicate (d.point.toNat - ds.length) '0', ['0'], none⟩
    else ⟨ds.take d.point.toNat, ds.drop d.point.toNat, none⟩
  else ⟨ds.take 1, ds.drop 1, some (d.point - 1)⟩

theorem point_not_mem {ds : List Char} (h : ∀ c ∈ ds, isDigit c = true) : '.' ∉ ds :=
  fun hc => absurd (h '.' hc) (by decide)

namespace Spelling.IsPlain

variable {s : Spelling}

theorem text_eq (h : s.IsPlain) :
    s.text = if s.fraction = [] then s.whole else s.whole ++ '.' :: s.fraction := by
  rw [text, h.exponent, pointed, marked, List.append_nil]
  split <;> simp

theorem contains_point (h : s.IsPlain) : s.text.contains '.' = true ↔ s.fraction ≠ [] := by
  have hwhole := point_not_mem h.whole
  rw [h.text_eq]
  split
  next hf => simp [hf, hwhole]
  next hf => simp [hf]

theorem text_withFraction (h : s.IsPlain) :
    s.withFraction.text = if s.text.contains '.' then s.text else s.text ++ ['.', '0'] := by
  unfold withFraction
  by_cases hf : s.fraction = []
  · rw [if_pos hf, if_neg fun hc => h.contains_point.1 hc hf, h.text_eq, if_pos hf]
    simp [text, pointed, marked, h.exponent]
  · rw [if_neg hf, if_pos (h.contains_point.2 hf)]

theorem value_withFraction (h : s.IsPlain) : s.withFraction.decimal.value = s.decimal.value := by
  unfold withFraction
  split
  next hf =>
    simp only [decimal, h.exponent, Option.getD_none, value_ofParts, hf]
    simp [ofDigits]
  next => rfl

theorem isProper_withFraction (h : s.IsPlain) (hlead : s.whole.head? = some '0' → s.whole = ['0']) :
    s.withFraction.IsProper := by
  unfold withFraction
  split
  next =>
    have hzero : ∀ c ∈ ['0'], isDigit c = true := List.forall_mem_singleton.2 rfl
    exact ⟨h.ne_nil, h.whole, hzero, hlead, .inl (List.cons_ne_nil _ _)⟩
  next hf => exact ⟨h.ne_nil, h.whole, h.fraction, hlead, .inl hf⟩

end Spelling.IsPlain

/-- Digits with a point after the first `point` of them, in parts. -/
def positionalSpelling (digits : List Char) (point : Int) : Spelling :=
  if point ≤ 0 then ⟨['0'], List.replicate (-point).toNat '0' ++ digits, none⟩
  else if digits.length ≤ point.toNat then
    ⟨digits ++ List.replicate (point.toNat - digits.length) '0', [], none⟩
  else ⟨digits.take point.toNat, digits.drop point.toNat, none⟩

theorem text_positionalSpelling {digits : List Char} (hne : digits ≠ []) (point : Int) :
    (positionalSpelling digits point).text = positional digits point := by
  unfold positionalSpelling positional
  by_cases hsmall : point ≤ 0
  · simp [Spelling.text, Spelling.pointed, Spelling.marked, hsmall, hne]
  by_cases hlong : digits.length ≤ point.toNat
  · simp [Spelling.text, Spelling.pointed, Spelling.marked, hsmall, hlong]
  · simp [Spelling.text, Spelling.pointed, Spelling.marked, hsmall, hlong]

theorem isPlain_positionalSpelling {digits : List Char} (hne : digits ≠ [])
    (h : ∀ c ∈ digits, isDigit c = true) (point : Int) :
    (positionalSpelling digits point).IsPlain := by
  have hzeros : ∀ n, ∀ c ∈ List.replicate n '0', isDigit c = true := fun n c hc =>
    (List.eq_of_mem_replicate hc) ▸ by decide
  unfold positionalSpelling
  by_cases hsmall : point ≤ 0
  · rw [if_pos hsmall]
    exact ⟨List.cons_ne_nil _ _, hzeros 1, List.forall_mem_append.2 ⟨hzeros _, h⟩, rfl⟩
  rw [if_neg hsmall]
  by_cases hlong : digits.length ≤ point.toNat
  · rw [if_pos hlong]
    exact ⟨by simp [hne], List.forall_mem_append.2 ⟨h, hzeros _⟩, nofun, rfl⟩
  · rw [if_neg hlong]
    refine ⟨?_, fun c hc => h c (List.mem_of_mem_take hc), fun c hc => h c (List.mem_of_mem_drop hc),
      rfl⟩
    simp only [ne_eq, List.take_eq_nil_iff, hne, or_false]
    omega

/-- The point is where the exponent of the digits puts it. -/
theorem value_positionalSpelling (digits : List Char) (point : Int) :
    (positionalSpelling digits point).decimal.value =
      (⟨ofDigits digits, point - digits.length⟩ : Decimal).value := by
  unfold positionalSpelling Spelling.decimal ofParts
  by_cases hsmall : point ≤ 0
  · rw [if_pos hsmall]
    have hexp : (0 : Int) - (List.replicate (-point).toNat '0' ++ digits).length =
        point - digits.length := by
      simp only [List.length_append, List.length_replicate]
      omega
    simp only [Option.getD_none]
    rw [hexp, List.cons_append, List.nil_append, ← List.cons_append, ← List.replicate_succ,
      ofDigits_zeros_append]
  rw [if_neg hsmall]
  by_cases hlong : digits.length ≤ point.toNat
  · rw [if_pos hlong]
    obtain ⟨n, hn⟩ : ∃ n : Nat, point - digits.length = n :=
      ⟨(point - digits.length).toNat, by omega⟩
    have hfill : point.toNat - digits.length = n := by omega
    simp only [Option.getD_none, hfill, List.append_nil, ofDigits_append_zeros, hn, value]
    simp
  · rw [if_neg hlong]
    have hexp : (0 : Int) - (digits.drop point.toNat).length = point - digits.length := by
      simp only [List.length_drop]
      omega
    simp only [Option.getD_none]
    rw [hexp, List.take_append_drop]

theorem lead_positionalSpelling {digits : List Char} (hlead : digits.head? ≠ some '0')
    (hne : digits ≠ []) (point : Int)
    (h : (positionalSpelling digits point).whole.head? = some '0') :
    (positionalSpelling digits point).whole = ['0'] := by
  unfold positionalSpelling at h ⊢
  by_cases hsmall : point ≤ 0
  · rw [if_pos hsmall]
  rw [if_neg hsmall] at h
  obtain ⟨c, cs, rfl⟩ := List.exists_cons_of_ne_nil hne
  obtain ⟨n, hn⟩ : ∃ n, point.toNat = n + 1 := ⟨point.toNat - 1, by omega⟩
  by_cases hlong : (c :: cs).length ≤ point.toNat
  · rw [if_pos hlong] at h
    exact absurd h hlead
  · rw [if_neg hlong, hn] at h
    exact absurd h hlead

/-- Positionally, a decimal is written in parts that have a fraction. -/
theorem spelling_of_positional {d : Decimal} (h : d.isPositional = true) :
    d.spelling = (positionalSpelling (digitsOf d.digits) d.point).withFraction := by
  have hne := digitsOf_ne_nil d.digits
  unfold spelling positionalSpelling Spelling.withFraction
  rw [if_pos h]
  by_cases hsmall : d.point ≤ 0
  · simp [hsmall, hne]
  by_cases hlong : (digitsOf d.digits).length ≤ d.point.toNat
  · simp [hsmall, hlong]
  · simp [hsmall, hlong]

theorem isPlain_positional (d : Decimal) :
    (positionalSpelling (digitsOf d.digits) d.point).IsPlain :=
  isPlain_positionalSpelling (digitsOf_ne_nil _) (fun _ => isDigit_of_mem_digitsOf) d.point

theorem value_positional (d : Decimal) :
    (positionalSpelling (digitsOf d.digits) d.point).decimal.value = d.value := by
  have hwidth : (digitsOf d.digits).length = width d.digits := rfl
  have hexp : d.point - (digitsOf d.digits).length = d.exponent := by
    rw [point, hwidth]
    omega
  rw [value_positionalSpelling, ofDigits_digitsOf, hexp]

theorem text_spelling (d : Decimal) : d.spelling.text = d.compact := by
  have hne := digitsOf_ne_nil d.digits
  unfold compact
  by_cases hpos : d.isPositional = true
  · rw [if_pos hpos, spelling_of_positional hpos, (isPlain_positional d).text_withFraction,
      text_positionalSpelling hne]
  · unfold spelling scientific
    rw [if_neg hpos, if_neg hpos]
    cases hds : digitsOf d.digits with
    | nil => exact absurd hds hne
    | cons c cs =>
      cases cs with
      | nil => simp [Spelling.text, Spelling.pointed, Spelling.marked]
      | cons c' cs => simp [Spelling.text, Spelling.pointed, Spelling.marked]

theorem isProper_spelling {d : Decimal} (h : 0 < d.digits) : d.spelling.IsProper := by
  have hdigit : ∀ c ∈ digitsOf d.digits, isDigit c = true := fun c => isDigit_of_mem_digitsOf
  have hne := digitsOf_ne_nil d.digits
  have hlead := head?_digitsOf h
  by_cases hpos : d.isPositional = true
  · rw [spelling_of_positional hpos]
    exact (isPlain_positional d).isProper_withFraction (lead_positionalSpelling hlead hne d.point)
  · unfold spelling
    simp only
    rw [if_neg hpos]
    refine ⟨by simp [hne], fun c hc => hdigit c (List.mem_of_mem_take hc),
      fun c hc => hdigit c (List.mem_of_mem_drop hc), fun hc => ?_, by simp⟩
    rw [List.head?_take] at hc
    simp_all

theorem value_spelling (d : Decimal) : d.spelling.decimal.value = d.value := by
  by_cases hpos : d.isPositional = true
  · rw [spelling_of_positional hpos, (isPlain_positional d).value_withFraction, value_positional]
  · have hwidth : (digitsOf d.digits).length = width d.digits := rfl
    have hpoint : d.point = d.exponent + width d.digits := rfl
    have hwide := width_pos d.digits
    have hexp : d.point - 1 - ((digitsOf d.digits).drop 1).length = d.exponent := by
      simp only [List.length_drop]
      omega
    unfold spelling Spelling.decimal ofParts
    simp only
    rw [if_neg hpos]
    simp only [Option.getD_some]
    rw [hexp, List.take_append_drop, ofDigits_digitsOf]

end Lox.Decimal
