import Lox.Proofs.Decimal.Bits
import Lox.Proofs.Decimal.Compact

/-!
The form of a number that a program prints, taken apart as the scanner takes it apart. Main statement:
its digits denote the number itself if it is whole, and otherwise what the compact form denotes, so
that in both cases they are read as the number.
-/

set_option autoImplicit false

namespace Lox.Decimal

-- Powers are those of the core library, also where other powers are at hand.
attribute [local instance (high)] instPowNat

namespace Binary

variable {m : Nat} {e : Int}

theorem integer?_finite (m : Nat) (e : Int) : (finite false m e).integer? =
    if 0 ≤ e then some ((m * 2 ^ e.toNat : Nat) : Int)
    else if m % 2 ^ (-e).toNat = 0 then some ((m / 2 ^ (-e).toNat : Nat) : Int)
    else none := by
  simp only [integer?, Bool.false_eq_true, if_false]
  split
  · rfl
  · split <;> rfl

theorem integer?_zero (e : Int) : (finite false 0 e).integer? = some 0 := by
  rw [integer?_finite]
  simp

/-- The integer that a double is, is its value. -/
theorem value_of_integer? {n : Int} (h : (finite false m e).integer? = some n) :
    (n.natAbs : ℚ) = m * 2 ^ e := by
  rw [integer?_finite] at h
  rcases le_or_gt 0 e with he | he
  · obtain ⟨k, rfl⟩ := Int.eq_ofNat_of_zero_le he
    rw [if_pos he] at h
    obtain rfl := Option.some.inj h
    rw [Int.natAbs_natCast]
    simp
  · obtain ⟨k, rfl⟩ : ∃ k : Nat, e = -k := ⟨(-e).toNat, by omega⟩
    rw [if_neg (not_le.2 he), neg_neg, Int.toNat_natCast] at h
    by_cases hmod : m % 2 ^ k = 0
    · rw [if_pos hmod] at h
      obtain rfl := Option.some.inj h
      have hdiv : m / 2 ^ k * 2 ^ k = m := Nat.div_mul_cancel (Nat.dvd_of_mod_eq_zero hmod)
      rw [Int.natAbs_natCast, zpow_neg, zpow_natCast, ← div_eq_mul_inv,
        eq_div_iff (by positivity)]
      exact_mod_cast hdiv
    · rw [if_neg hmod] at h
      cases h

/-- The value of a double that is no integer is none. -/
theorem ne_of_integer?_eq_none (h : (finite false m e).integer? = none) (n : Nat) :
    (m : ℚ) * 2 ^ e ≠ n := by
  intro hn
  rw [integer?_finite] at h
  split at h
  · cases h
  next he =>
    obtain ⟨k, rfl⟩ : ∃ k : Nat, e = -k := ⟨(-e).toNat, by omega⟩
    rw [zpow_neg, zpow_natCast, ← div_eq_mul_inv, div_eq_iff (by positivity)] at hn
    have hm : m = n * 2 ^ k := by exact_mod_cast hn
    rw [neg_neg, Int.toNat_natCast, hm, if_pos (Nat.mul_mod_left n (2 ^ k))] at h
    cases h

end Binary

/-- The printed form of a double without its sign, in parts. -/
def plainSpelling (m : Nat) (e : Int) : Spelling :=
  match (Binary.finite false m e).integer? with
  | some n => ⟨digitsOf n.natAbs, [], none⟩
  | none => positionalSpelling (digitsOf (shortest m e).digits) (shortest m e).point

theorem isPlain_plainSpelling (m : Nat) (e : Int) : (plainSpelling m e).IsPlain := by
  unfold plainSpelling
  split
  · exact ⟨digitsOf_ne_nil _, fun c => isDigit_of_mem_digitsOf, nofun, rfl⟩
  · exact isPlain_positional _

theorem text_plainSpelling (m : Nat) (e : Int) : (plainSpelling m e).text = expanded m e := by
  unfold plainSpelling expanded
  cases (Binary.finite false m e).integer? with
  | some n => simp [Spelling.text, Spelling.pointed, Spelling.marked]
  | none => exact text_positionalSpelling (digitsOf_ne_nil _) _

/-- Zero is printed as every other integer. -/
theorem plainSpelling_zero (e : Int) : plainSpelling 0 e = ⟨['0'], [], none⟩ := by
  rw [plainSpelling, Binary.integer?_zero]
  rfl

theorem plain_eq {x : Float} {negative : Bool} {m : Nat} {e : Int}
    (h : Binary.ofFloat x = .finite negative m e) :
    plain x = signed negative (plainSpelling m e).text := by
  rw [plain, h]
  cases m with
  | zero => exact congrArg (fun s => signed negative s.text) (plainSpelling_zero e).symm
  | succ m => exact congrArg (signed negative) (text_plainSpelling (m + 1) e).symm

theorem plainSpelling_of_integer {m : Nat} {e : Int} {n : Nat} (h : (m : ℚ) * 2 ^ e = n) :
    (plainSpelling m e).fraction = [] ∧ (plainSpelling m e).decimal.value = m * 2 ^ e := by
  unfold plainSpelling
  split
  next k hk =>
    refine ⟨rfl, ?_⟩
    rw [← Binary.value_of_integer? hk, Spelling.decimal, Option.getD_none, value_ofParts_nil,
      ofDigits_digitsOf]
  next hnone => exact absurd h (Binary.ne_of_integer?_eq_none hnone n)

theorem value_plainSpelling {m : Nat} {e : Int} (h : ¬ ∃ n : Nat, (m : ℚ) * 2 ^ e = n) :
    (plainSpelling m e).decimal.value = (shortest m e).value := by
  unfold plainSpelling
  split
  next k hk => exact absurd ⟨_, (Binary.value_of_integer? hk).symm⟩ h
  next => exact value_positional _

/-- The compact form in parts, which denote the shortest decimal. -/
theorem written_eq {x : Float} {negative : Bool} {m : Nat} {e : Int}
    (h : Binary.ofFloat x = .finite negative m e) (hm : m ≠ 0) :
    (shortest m e).spelling.IsProper ∧ written x = signed negative (shortest m e).spelling.text ∧
      (shortest m e).spelling.decimal.value = (shortest m e).value := by
  refine ⟨isProper_spelling (digits_shortest_pos h hm), ?_, value_spelling _⟩
  obtain ⟨k, rfl⟩ := Nat.exists_eq_succ_of_ne_zero hm
  rw [text_spelling, written, h]
  rfl

/-- The printed digits of a double are read as the double, up to the sign. -/
theorem toFloat_plainSpelling {x : Float} {negative : Bool} {m : Nat} {e : Int}
    (h : Binary.ofFloat x = .finite negative m e) :
    (if negative then -(plainSpelling m e).decimal.toFloat
      else (plainSpelling m e).decimal.toFloat) = x := by
  by_cases hm : m = 0
  · subst hm
    refine toFloat_of_zero h ?_
    rw [plainSpelling_zero]
    rfl
  refine toFloat_of_roundsTo h hm ?_
  by_cases hwhole : ∃ n : Nat, (m : ℚ) * 2 ^ e = n
  · obtain ⟨n, hn⟩ := hwhole
    rw [(plainSpelling_of_integer hn).2]
    exact roundsTo_self
  · rw [value_plainSpelling hwhole]
    exact roundsTo_shortest (Binary.isDouble_of_finite h hm).2

end Lox.Decimal
