import Lox.Decimal.Writing

/-!
Digits: the numbers that runs of digits write, and the digits of numbers.
-/

set_option autoImplicit false

namespace Lox

namespace Decimal

-- Powers are those of the core library, also where other powers are at hand.
attribute [local instance (high)] instPowNat

theorem ofDigits_eq (cs : List Char) : ofDigits cs = Nat.ofDigitChars 10 cs 0 := rfl

theorem ofDigits_append (cs ds : List Char) :
    ofDigits (cs ++ ds) = ofDigits cs * 10 ^ ds.length + ofDigits ds := by
  simp only [ofDigits_eq, Nat.ofDigitChars_append]
  rw [Nat.ofDigitChars_eq_ofDigitChars_zero, Nat.mul_comm]

theorem ofDigits_zeros_append (n : Nat) (ds : List Char) :
    ofDigits (List.replicate n '0' ++ ds) = ofDigits ds := by
  rw [ofDigits_append]
  simp [ofDigits_eq]

theorem ofDigits_append_zeros (n : Nat) (ds : List Char) :
    ofDigits (ds ++ List.replicate n '0') = ofDigits ds * 10 ^ n := by
  rw [ofDigits_append]
  simp [ofDigits_eq]

theorem ofDigits_digitsOf (n : Nat) : ofDigits (digitsOf n) = n := by
  rw [ofDigits_eq, digitsOf, Nat.ofDigitChars_ten_toDigits]

theorem isDigit_of_mem_digitsOf {n : Nat} {c : Char} (h : c ∈ digitsOf n) : isDigit c = true :=
  Nat.isDigit_of_mem_toDigits (by decide) (by decide) h

theorem digitsOf_ne_nil (n : Nat) : digitsOf n ≠ [] := Nat.toDigits_ne_nil

theorem head?_digitsOf {n : Nat} (h : 0 < n) : (digitsOf n).head? ≠ some '0' := by
  induction n using Nat.strongRecOn with
  | ind n ih =>
    rcases Nat.lt_or_ge n 10 with hlt | hge
    · rw [digitsOf, Nat.toDigits_of_lt_base hlt]
      have hfirst : ∀ k < 10, 0 < k → [k.digitChar].head? ≠ some '0' := by decide
      exact hfirst n hlt h
    · rw [digitsOf, Nat.toDigits_of_base_le (by decide) hge]
      have hrest := ih (n / 10) (by omega) (by omega)
      have hne := digitsOf_ne_nil (n / 10)
      rw [digitsOf] at hrest hne
      cases hds : Nat.toDigits 10 (n / 10) with
      | nil => exact absurd hds hne
      | cons c cs => rwa [hds] at hrest

end Decimal

end Lox
