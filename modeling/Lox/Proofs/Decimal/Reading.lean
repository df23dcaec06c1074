import Lox.Proofs.Decimal.Digits
import Lox.Proofs.Decimal.Shortest

/-!
What decimals read as. Main statement: the bits of a decimal are those of the nearest double, zero and
infinity included, and no others.
-/

set_option autoImplicit false

namespace Lox.Decimal

/-- The bits of the double nearest to a number that is not negative. Half of the least double is zero
still, and what is half a unit past the greatest one is infinite. -/
inductive IsNearest (v : ℚ) : Nat → Prop where
  | double {m : Nat} {e : Int} (hd : IsDouble m e) (h : RoundsTo m e v) : IsNearest v (bitsOf m e)
  | zero (h : 2 * v ≤ 2 ^ leastExponent) : IsNearest v 0
  | infinite (h : (2 ^ 54 - 1) * 2 ^ (970 : Int) ≤ v) : IsNearest v infinityBits

theorem isNear_roundRatio (num : Nat) {den : Nat} (hden : 0 < den) :
    IsNear (roundRatio num den) (num / den) := by
  have hd : (0 : ℚ) < den := by exact_mod_cast hden
  have hnum : (num : ℚ) = den * (num / den : Nat) + (num % den : Nat) := by
    exact_mod_cast (Nat.div_add_mod num den).symm
  have hv : (num / den : ℚ) = (num / den : Nat) + ((num % den : Nat) : ℚ) / den := by
    rw [hnum]
    field_simp
  have hpos : 0 ≤ ((num % den : Nat) : ℚ) / den := by positivity
  have hlt : ((num % den : Nat) : ℚ) / den < 1 := by
    rw [div_lt_one hd]
    exact_mod_cast Nat.mod_lt num hden
  have hbelow : 2 * (num % den) < den → 2 * (((num % den : Nat) : ℚ) / den) < 1 := fun h => by
    rw [← mul_div_assoc, div_lt_one hd]
    exact_mod_cast h
  have habove : den < 2 * (num % den) → 1 < 2 * (((num % den : Nat) : ℚ) / den) := fun h => by
    rw [← mul_div_assoc, one_lt_div hd]
    exact_mod_cast h
  have hhalf : 2 * (num % den) = den → 2 * (((num % den : Nat) : ℚ) / den) = 1 := fun h => by
    rw [← mul_div_assoc, div_eq_one_iff_eq hd.ne']
    exact_mod_cast h
  rw [hv]
  unfold roundRatio
  generalize ((num % den : Nat) : ℚ) / den = x at *
  generalize num / den = q at *
  simp only
  split
  next h =>
    have := hbelow h
    constructor <;> intros <;> linarith
  next =>
    split
    next h =>
      have := habove h
      constructor <;> intros <;> push_cast <;> linarith
    next =>
      have := hhalf (by omega)
      split
      next =>
        refine ⟨by linarith, by linarith, fun h => by omega, fun h => by omega⟩
      next =>
        refine ⟨by push_cast; linarith, by push_cast; linarith, fun h => by omega, fun h => by omega⟩

theorem isNear_roundScaled (num : Nat) {den : Nat} (hden : 0 < den) (e : Int) :
    IsNear (roundScaled num den e) (num / den / 2 ^ e) := by
  unfold roundScaled
  split
  next he =>
    obtain ⟨n, rfl⟩ := Int.eq_ofNat_of_zero_le he
    have h := isNear_roundRatio num (show 0 < den * 2 ^ n by positivity)
    simpa [div_div] using h
  next he =>
    obtain ⟨n, rfl⟩ : ∃ n : Nat, e = -n := ⟨(-e).toNat, by omega⟩
    have h := isNear_roundRatio (num * 2 ^ n) hden
    have hv : (num / den / 2 ^ (-n : Int) : ℚ) = (num * 2 ^ n : Nat) / den := by
      rw [zpow_neg, zpow_natCast, div_inv_eq_mul]
      push_cast
      ring
    rw [hv]
    simpa using h

namespace IsNear

variable {m : Nat} {e : Int} {v : ℚ}

/-- Just below a power of two the doubles are closer, and there none of the reals is. -/
theorem roundsTo (h : IsNear m (v / 2 ^ e)) (hm : leastExponent < e → 2 ^ 52 ≤ v / 2 ^ e) :
    RoundsTo m e v := by
  have hlow : (4 * m - reach m e : ℚ) ≤ 4 * (v / 2 ^ e) ∧
      (m % 2 = 1 → (4 * m - reach m e : ℚ) < 4 * (v / 2 ^ e)) := by
    unfold reach
    split
    next hr =>
      obtain ⟨rfl, he⟩ := hr
      have := hm he
      exact ⟨by push_cast; linarith, fun h => by omega⟩
    next =>
      have := h.low_le
      exact ⟨by push_cast; linarith, fun hk => by have := h.low_lt hk; push_cast; linarith⟩
  refine ⟨hlow.1, ?_, hlow.2, fun hk => ?_⟩
  · linarith [h.le_high]
  · linarith [h.lt_high hk]

/-- A mantissa that rounds up to a power of two is that of the next exponent. -/
theorem roundsTo_carried (h : IsNear (2 ^ 53) (v / 2 ^ e)) (he : leastExponent ≤ e)
    (hv : v / 2 ^ e < 2 ^ 53) : RoundsTo (2 ^ 52) (e + 1) v := by
  have hhalf : v / 2 ^ (e + 1) = v / 2 ^ e / 2 := by
    rw [zpow_add_one₀ two_ne_zero, div_div]
  have hr : (reach (2 ^ 52) (e + 1) : ℚ) = 1 := by
    have hlt : leastExponent < e + 1 := by omega
    simp [reach, hlt]
  have hlow := h.low_le
  push_cast at hlow
  refine ⟨?_, ?_, fun hk => by omega, fun hk => by omega⟩
  · rw [hhalf, hr]
    push_cast
    linarith
  · rw [hhalf]
    push_cast
    linarith

end IsNear

/-- A mantissa at the exponent that a number has among the doubles gives the bits of the nearest one. -/
theorem isNearest_of_isNear {v : ℚ} {k : Nat} {e : Int} (hleast : leastExponent ≤ e)
    (h : IsNear k (v / 2 ^ e)) (hlt : v / 2 ^ e < 2 ^ 53)
    (hge : leastExponent < e → 2 ^ 52 ≤ v / 2 ^ e) :
    IsNearest v (min infinityBits ((e - leastExponent).toNat * 2 ^ 52 + k)) := by
  have hu : (0 : ℚ) < 2 ^ e := by positivity
  have hmost : k ≤ 2 ^ 53 := by
    have hk : (2 * k : ℚ) < 2 * 2 ^ 53 + 1 := by linarith [h.low_le]
    have hk' : 2 * k < 2 * 2 ^ 53 + 1 := by exact_mod_cast hk
    omega
  have hnormal : e = leastExponent ∨ 2 ^ 52 ≤ k := by
    rcases hleast.eq_or_lt with he | he
    · exact .inl he.symm
    · have hk : (2 * 2 ^ 52 : ℚ) ≤ 2 * k + 1 := by linarith [h.le_high, hge he]
      have hk' : 2 * 2 ^ 52 ≤ 2 * k + 1 := by exact_mod_cast hk
      exact .inr (by omega)
  rcases Nat.eq_zero_or_pos k with rfl | hpos
  · obtain rfl : e = leastExponent := by omega
    have hv : 2 * v ≤ 2 ^ leastExponent := by
      have := (div_le_iff₀ hu).1 (show v / 2 ^ leastExponent ≤ 2⁻¹ by linarith [h.le_high])
      linarith
    simpa using IsNearest.zero hv
  -- The mantissa fits its exponent, or carries into the next one, or is past the greatest double.
  by_cases hfits : e ≤ 971 ∧ k < 2 ^ 53
  · have hd : IsDouble k e := ⟨hpos, hfits.2, hleast, hnormal, hfits.1⟩
    have hbits : (e - leastExponent).toNat * 2 ^ 52 + k = bitsOf k e := rfl
    rw [hbits, min_eq_right hd.bitsOf_lt.le]
    exact .double hd (h.roundsTo hge)
  by_cases hcarries : e ≤ 970 ∧ k = 2 ^ 53
  · obtain ⟨he, rfl⟩ := hcarries
    have hd : IsDouble (2 ^ 52) (e + 1) :=
      ⟨by positivity, by omega, by omega, .inr le_rfl, by omega⟩
    have hbits : (e - leastExponent).toNat * 2 ^ 52 + 2 ^ 53 = bitsOf (2 ^ 52) (e + 1) := by
      unfold bitsOf
      omega
    rw [hbits, min_eq_right hd.bitsOf_lt.le]
    exact .double hd (h.roundsTo_carried hleast hlt)
  · have hlarge : infinityBits ≤ (e - leastExponent).toNat * 2 ^ 52 + k := by
      unfold infinityBits leastExponent at *
      omega
    rw [min_eq_left hlarge]
    refine .infinite ?_
    rcases lt_or_ge 971 e with he | he
    · have hv := (le_div_iff₀ hu).1 (hge (by unfold leastExponent; omega))
      calc ((2 : ℚ) ^ 54 - 1) * 2 ^ (970 : Int) ≤ 2 ^ 54 * 2 ^ (970 : Int) := by gcongr; norm_num
        _ = 2 ^ 52 * 2 ^ (972 : Int) := by
          rw [show (972 : Int) = 2 + 970 by norm_num, zpow_add₀ two_ne_zero]
          norm_num [← mul_assoc]
        _ ≤ 2 ^ 52 * 2 ^ e := mul_le_mul_of_nonneg_left
          (zpow_le_zpow_right₀ (by norm_num) (by omega)) (by positivity)
        _ ≤ v := hv
    · obtain ⟨rfl, rfl⟩ : e = 971 ∧ k = 2 ^ 53 := by omega
      have hhalf : v / 2 ^ (971 : Int) = v / 2 ^ (970 : Int) / 2 := by
        rw [show (971 : Int) = 970 + 1 by norm_num, zpow_add_one₀ two_ne_zero, div_div]
      have hlow := h.low_le
      rw [hhalf] at hlow
      refine (le_div_iff₀ (by positivity)).1 ?_
      generalize v / 2 ^ (970 : Int) = x at hlow ⊢
      push_cast at hlow
      linarith

/-- The nearest bits are nearest, for every ratio. -/
theorem isNearest_nearestBits (num : Nat) {den : Nat} (hden : 0 < den) :
    IsNearest (num / den) (nearestBits num den) := by
  rcases Nat.eq_zero_or_pos num with rfl | hnum
  · rw [nearestBits, if_pos rfl]
    exact .zero (by simp; positivity)
  obtain ⟨hlow, hhigh⟩ := floorLog2_spec hnum hden
  obtain ⟨e, he⟩ : ∃ e, e = max (floorLog2 num den - 52) leastExponent := ⟨_, rfl⟩
  have hleast : leastExponent ≤ e := by omega
  have hu : (0 : ℚ) < 2 ^ e := by positivity
  have hlt : (num / den : ℚ) / 2 ^ e < 2 ^ 53 := by
    rw [div_lt_iff₀ hu]
    calc (num / den : ℚ) < 2 ^ (floorLog2 num den + 1) := hhigh
      _ ≤ 2 ^ (53 + e) := zpow_le_zpow_right₀ (by norm_num) (by omega)
      _ = 2 ^ 53 * 2 ^ e := by rw [zpow_add₀ two_ne_zero]; rfl
  have hge : leastExponent < e → (2 : ℚ) ^ 52 ≤ num / den / 2 ^ e := fun h => by
    rw [le_div_iff₀ hu]
    calc (2 : ℚ) ^ 52 * 2 ^ e = 2 ^ (52 + e) := by rw [zpow_add₀ two_ne_zero]; rfl
      _ = 2 ^ floorLog2 num den := by congr 1; omega
      _ ≤ num / den := hlow
  have hnear := isNear_roundScaled num hden e
  rw [nearestBits_eq_roundScaled hnum e he.symm]
  exact isNearest_of_isNear hleast hnear hlt hge

/-- A decimal reads as the double nearest to it. -/
theorem isNearest_toBits (d : Decimal) : IsNearest d.value d.toBits := by
  simp only [toBits]
  split
  next h =>
    refine .zero ?_
    rcases h with h | h
    · simp only [value, h, Nat.cast_zero, zero_mul, mul_zero]
      positivity
    · have hsmall : (2 : ℚ) * 10 ^ (-401 : Int) ≤ 2 ^ leastExponent := by
        have hnat : 2 * 2 ^ 1074 ≤ 10 ^ 401 := by decide +kernel
        have hpow : (2 : ℚ) * 2 ^ 1074 ≤ 10 ^ 401 := by exact_mod_cast hnat
        rw [leastExponent, zpow_neg, zpow_neg, ← div_eq_mul_inv, div_le_iff₀ (by positivity),
          inv_mul_eq_div, le_div_iff₀ (by positivity)]
        exact_mod_cast hpow
      calc 2 * d.value ≤ 2 * 10 ^ (d.exponent + width d.digits) := by gcongr; exact d.value_lt.le
        _ ≤ 2 * 10 ^ (-401 : Int) := mul_le_mul_of_nonneg_left
          (zpow_le_zpow_right₀ (by norm_num) (by omega)) (by norm_num)
        _ ≤ 2 ^ leastExponent := hsmall
  next h =>
    split
    next htop =>
      have hlarge : ((2 : ℚ) ^ 54 - 1) * 2 ^ (970 : Int) ≤ 10 ^ (400 : Int) := by
        have hnat : 2 ^ 54 * 2 ^ 970 ≤ 10 ^ 400 := by decide +kernel
        have hpow : (2 : ℚ) ^ 54 * 2 ^ (970 : Int) ≤ 10 ^ (400 : Int) := by exact_mod_cast hnat
        refine le_trans ?_ hpow
        exact mul_le_mul_of_nonneg_right (by norm_num) (by positivity)
      refine .infinite (hlarge.trans ?_)
      calc (10 : ℚ) ^ (400 : Int) ≤ 10 ^ (d.exponent + width d.digits - 1) :=
          zpow_le_zpow_right₀ (by norm_num) (by omega)
        _ ≤ d.value := le_value (by omega)
    next =>
      split
      next he =>
        obtain ⟨n, hn⟩ := Int.eq_ofNat_of_zero_le he
        have h := isNearest_nearestBits (d.digits * 10 ^ d.exponent.toNat) Nat.one_pos
        simpa [value, hn] using h
      next he =>
        obtain ⟨n, hn⟩ : ∃ n : Nat, d.exponent = -n := ⟨(-d.exponent).toNat, by omega⟩
        have h := isNearest_nearestBits d.digits
          (show 0 < 10 ^ (-d.exponent).toNat by positivity)
        simpa [value, hn, div_eq_mul_inv] using h

namespace RoundsTo

variable {m : Nat} {e : Int} {v : ℚ}

/-- What rounds to a double is more than half of the least one. -/
theorem least_lt (hd : IsDouble m e) (h : RoundsTo m e v) : 2 ^ leastExponent < 2 * v := by
  have hu : (0 : ℚ) < 2 ^ e := by positivity
  have hle : (2 : ℚ) ^ leastExponent ≤ 2 ^ e := zpow_le_zpow_right₀ (by norm_num) hd.least_le
  have hr : (reach m e : ℚ) ≤ 2 := by exact_mod_cast reach_le_two m e
  have hhalf : 1 < 2 * (v / 2 ^ e) := by
    rcases Nat.lt_or_ge 1 m with hm | hm
    · have hmq : (2 : ℚ) ≤ m := by exact_mod_cast hm
      linarith [h.low_le]
    · obtain rfl : m = 1 := by have := hd.pos; omega
      have hlow := h.low_lt rfl
      push_cast at hlow
      linarith
  have hv := (lt_div_iff₀ hu).1 (show 2⁻¹ < v / 2 ^ e by linarith)
  linarith

/-- What rounds to a double is less than half a unit past the greatest one. -/
theorem lt_most (hd : IsDouble m e) (h : RoundsTo m e v) :
    v < (2 ^ 54 - 1) * 2 ^ (970 : Int) := by
  have hu : (0 : ℚ) < 2 ^ e := by positivity
  have hunits : 2 * (v / 2 ^ e) < 2 ^ 54 - 1 := by
    rcases Nat.lt_or_ge m (2 ^ 53 - 1) with hm | hm
    · have hmq : (m : ℚ) + 2 ≤ 2 ^ 53 := by exact_mod_cast (show m + 2 ≤ 2 ^ 53 by omega)
      linarith [h.le_high]
    · obtain rfl : m = 2 ^ 53 - 1 := by have := hd.lt; omega
      have hhigh := h.lt_high rfl
      push_cast at hhigh
      linarith
  have hscale : (2 : ℚ) ^ e ≤ 2 * 2 ^ (970 : Int) := by
    rw [mul_comm, ← zpow_add_one₀ two_ne_zero]
    exact zpow_le_zpow_right₀ (by norm_num) (by have := hd.le_most; omega)
  have hv := (div_lt_iff₀ hu).1 (show v / 2 ^ e < (2 ^ 54 - 1) / 2 by linarith)
  calc v < (2 ^ 54 - 1) / 2 * 2 ^ e := hv
    _ ≤ (2 ^ 54 - 1) / 2 * (2 * 2 ^ (970 : Int)) :=
      mul_le_mul_of_nonneg_left hscale (by norm_num)
    _ = (2 ^ 54 - 1) * 2 ^ (970 : Int) := by ring

end RoundsTo

/-- No other bits are nearest to a decimal than those that it reads as. -/
theorem isNearest_iff {d : Decimal} {bits : Nat} : IsNearest d.value bits ↔ d.toBits = bits := by
  constructor
  · intro h
    have hown := isNearest_toBits d
    have hapart : (2 : ℚ) ^ leastExponent < 2 * ((2 ^ 54 - 1) * 2 ^ (970 : Int)) := by
      calc (2 : ℚ) ^ leastExponent ≤ 2 ^ (970 : Int) :=
            zpow_le_zpow_right₀ (by norm_num) (by decide)
        _ < 2 * ((2 ^ 54 - 1) * 2 ^ (970 : Int)) := by
          have hpos : (0 : ℚ) < 2 ^ (970 : Int) := by positivity
          generalize (2 : ℚ) ^ (970 : Int) = u at hpos ⊢
          linarith
    cases h with
    | double hd h => exact toBits_of_roundsTo hd h
    | zero h =>
      generalize d.toBits = bits at hown
      cases hown with
      | double hd h' => exact absurd h (not_le.2 (h'.least_lt hd))
      | zero => rfl
      | infinite h' => linarith
    | infinite h =>
      generalize d.toBits = bits at hown
      cases hown with
      | double hd h' => exact absurd h (not_le.2 (h'.lt_most hd))
      | zero h' => linarith
      | infinite => rfl
  · rintro rfl
    exact isNearest_toBits d

/-- The number that digits write with a point after the first of them. -/
theorem value_ofParts (whole fraction : List Char) : (ofParts whole fraction 0).value =
    ofDigits whole + ofDigits fraction / 10 ^ fraction.length := by
  have hpow : (10 : ℚ) ^ fraction.length ≠ 0 := by positivity
  rw [ofParts, value, ofDigits_append]
  push_cast
  rw [zero_sub, zpow_neg, zpow_natCast]
  field_simp

theorem value_ofParts_nil (whole : List Char) : (ofParts whole [] 0).value = ofDigits whole := by
  simp [value_ofParts, ofDigits]

end Lox.Decimal
