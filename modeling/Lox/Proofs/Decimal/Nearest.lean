import Mathlib.Algebra.Order.Field.Power
import Mathlib.Data.Rat.Cast.Order
import Mathlib.Tactic.FieldSimp
import Mathlib.Tactic.Linarith
import Mathlib.Tactic.Positivity
import Mathlib.Tactic.Ring
import Lox.Decimal.Binary

/-!
The double nearest to a ratio. Main statement: every ratio among the reals that round to a double has
the bits of that double as its nearest.
-/

set_option autoImplicit false

namespace Lox.Decimal

/-- The positive doubles: `m * 2 ^ e` with 53 bits, or with fewer at the least exponent. -/
structure IsDouble (m : Nat) (e : Int) : Prop where
  pos : 0 < m
  lt : m < 2 ^ 53
  least_le : leastExponent ≤ e
  normal : e = leastExponent ∨ 2 ^ 52 ≤ m
  le_most : e ≤ 971

/-- How far below a double the reals begin that round to it, in quarters of its unit. -/
def reach (m : Nat) (e : Int) : Nat := if m = 2 ^ 52 ∧ leastExponent < e then 1 else 2

theorem one_le_reach (m : Nat) (e : Int) : 1 ≤ reach m e := by unfold reach; split <;> omega

theorem reach_le_two (m : Nat) (e : Int) : reach m e ≤ 2 := by unfold reach; split <;> omega

/-- A real that rounds to `m * 2 ^ e`: between the ends, which belong to it when `m` is even. -/
structure RoundsTo (m : Nat) (e : Int) (v : ℚ) : Prop where
  low_le : 4 * m - reach m e ≤ 4 * (v / 2 ^ e)
  le_high : 4 * (v / 2 ^ e) ≤ 4 * m + 2
  low_lt : m % 2 = 1 → 4 * m - reach m e < 4 * (v / 2 ^ e)
  lt_high : m % 2 = 1 → 4 * (v / 2 ^ e) < 4 * m + 2

/-- The bits of a positive double. -/
def bitsOf (m : Nat) (e : Int) : Nat := (e - leastExponent).toNat * 2 ^ 52 + m

theorem roundRatio_eq {num den k : Nat} (hlow : 2 * k * den ≤ 2 * num + den)
    (hhigh : 2 * num ≤ (2 * k + 1) * den)
    (hodd : k % 2 = 1 → 2 * k * den < 2 * num + den ∧ 2 * num < (2 * k + 1) * den)
    (hden : 0 < den) : roundRatio num den = k := by
  have hdiv := Nat.div_add_mod num den
  have hmod := Nat.mod_lt num hden
  set q := num / den with hq
  set r := num % den with hr
  have hle : k ≤ q + 1 := by
    by_contra hlt
    have hmul : (q + 2) * den ≤ k * den := Nat.mul_le_mul_right den (by omega)
    nlinarith
  have hge : q ≤ k := by
    by_contra hlt
    have hmul : (k + 1) * den ≤ q * den := Nat.mul_le_mul_right den (by omega)
    nlinarith
  rcases Nat.lt_or_ge q k with hqk | hqk
  · obtain rfl : k = q + 1 := by omega
    have hrest : den ≤ 2 * r := by nlinarith
    have hstrict : q % 2 = 0 → den < 2 * r := fun h => by
      have := (hodd (by omega)).1
      nlinarith
    unfold roundRatio
    simp only [← hq, ← hr]
    split
    · omega
    split
    · rfl
    split
    next heven => have := hstrict heven; omega
    next => rfl
  · have hkq : q = k := by omega
    have hrest : 2 * r ≤ den := by nlinarith
    have hstrict : k % 2 = 1 → 2 * r < den := fun h => by
      have := (hodd h).2
      nlinarith
    unfold roundRatio
    simp only [← hq, ← hr]
    split
    · exact hkq
    split
    · omega
    split
    next => exact hkq
    next hne => have := hstrict (by omega); omega

/-- A ratio lies within half a unit of an integer, and only an even one has a half beside it. -/
structure IsNear (k : Nat) (v : ℚ) : Prop where
  low_le : 2 * k - 1 ≤ 2 * v
  le_high : 2 * v ≤ 2 * k + 1
  low_lt : k % 2 = 1 → 2 * k - 1 < 2 * v
  lt_high : k % 2 = 1 → 2 * v < 2 * k + 1

theorem roundRatio_of_isNear {num den k : Nat} (hden : 0 < den) (h : IsNear k (num / den)) :
    roundRatio num den = k := by
  have hd : (0 : ℚ) < den := by exact_mod_cast hden
  have hv : (num / den : ℚ) * den = num := by field_simp
  refine roundRatio_eq ?_ ?_ (fun hk => ⟨?_, ?_⟩) hden
  · have := mul_le_mul_of_nonneg_right h.low_le hd.le
    have : (2 * k * den : ℚ) ≤ 2 * num + den := by linarith
    exact_mod_cast this
  · have := mul_le_mul_of_nonneg_right h.le_high hd.le
    have : (2 * num : ℚ) ≤ (2 * k + 1) * den := by linarith
    exact_mod_cast this
  · have := mul_lt_mul_of_pos_right (h.low_lt hk) hd
    have : (2 * k * den : ℚ) < 2 * num + den := by linarith
    exact_mod_cast this
  · have := mul_lt_mul_of_pos_right (h.lt_high hk) hd
    have : (2 * num : ℚ) < (2 * k + 1) * den := by linarith
    exact_mod_cast this

/-- A ratio divided by a power of two, rounded to an integer. -/
def roundScaled (num den : Nat) (e : Int) : Nat :=
  if 0 ≤ e then roundRatio num (den * 2 ^ e.toNat) else roundRatio (num * 2 ^ (-e).toNat) den

theorem roundScaled_of_isNear {num den k : Nat} {e : Int} (hden : 0 < den)
    (h : IsNear k (num / den / 2 ^ e)) : roundScaled num den e = k := by
  unfold roundScaled
  split
  next he =>
    obtain ⟨n, rfl⟩ := Int.eq_ofNat_of_zero_le he
    have hpos : 0 < den * 2 ^ n := by positivity
    refine roundRatio_of_isNear hpos ?_
    simpa [div_div] using h
  next he =>
    obtain ⟨n, rfl⟩ : ∃ n : Nat, e = -n := ⟨(-e).toNat, by omega⟩
    refine roundRatio_of_isNear hden ?_
    have hv : (num / den / 2 ^ (-n : Int) : ℚ) = (num * 2 ^ n : Nat) / den := by
      rw [zpow_neg, zpow_natCast, div_inv_eq_mul]
      push_cast
      ring
    rw [hv] at h
    simpa using h

theorem log2_bounds {n : Nat} (h : 0 < n) :
    (2 : ℚ) ^ (n.log2 : Int) ≤ n ∧ (n : ℚ) < 2 ^ ((n.log2 : Int) + 1) := by
  constructor
  · exact_mod_cast Nat.log2_self_le h.ne'
  · exact_mod_cast @Nat.lt_log2_self n

theorem two_zpow_le_iff {num den : Nat} (hden : 0 < den) (g : Int) :
    (2 : ℚ) ^ g ≤ num / den ↔
      if 0 ≤ g then den * 2 ^ g.toNat ≤ num else den ≤ num * 2 ^ (-g).toNat := by
  have hd : (0 : ℚ) < den := by exact_mod_cast hden
  rw [le_div_iff₀ hd]
  split
  next h =>
    obtain ⟨n, hn⟩ := Int.eq_ofNat_of_zero_le h
    rw [hn, zpow_natCast, Int.toNat_natCast, mul_comm den]
    exact_mod_cast Iff.rfl
  next h =>
    obtain ⟨n, hn⟩ : ∃ n : Nat, g = -n := ⟨(-g).toNat, by omega⟩
    rw [hn, neg_neg, Int.toNat_natCast, zpow_neg, zpow_natCast, inv_mul_le_iff₀ (by positivity),
      mul_comm num]
    exact_mod_cast Iff.rfl

theorem floorLog2_spec {num den : Nat} (hnum : 0 < num) (hden : 0 < den) :
    (2 : ℚ) ^ floorLog2 num den ≤ num / den ∧ (num / den : ℚ) < 2 ^ (floorLog2 num den + 1) := by
  have hd : (0 : ℚ) < den := by exact_mod_cast hden
  obtain ⟨hlow, hhigh⟩ := log2_bounds hnum
  obtain ⟨hdlow, hdhigh⟩ := log2_bounds hden
  set g : Int := (num.log2 : Int) - den.log2 with hg
  have hbelow : (2 : ℚ) ^ (g - 1) ≤ num / den := by
    rw [le_div_iff₀ hd]
    calc (2 : ℚ) ^ (g - 1) * den ≤ 2 ^ (g - 1) * 2 ^ ((den.log2 : Int) + 1) := by gcongr
      _ = 2 ^ (num.log2 : Int) := by rw [← zpow_add₀ two_ne_zero]; congr 1; omega
      _ ≤ num := hlow
  have habove : (num / den : ℚ) < 2 ^ (g + 1) := by
    rw [div_lt_iff₀ hd]
    calc (num : ℚ) < 2 ^ ((num.log2 : Int) + 1) := hhigh
      _ = 2 ^ (g + 1) * 2 ^ (den.log2 : Int) := by rw [← zpow_add₀ two_ne_zero]; congr 1; omega
      _ ≤ 2 ^ (g + 1) * den := by gcongr
  have hlog : floorLog2 num den = if (2 : ℚ) ^ g ≤ num / den then g else g - 1 := by
    unfold floorLog2
    simp only [← hg, two_zpow_le_iff hden]
  rw [hlog]
  split
  next h => exact ⟨h, habove⟩
  next h => exact ⟨hbelow, by simpa using not_le.1 h⟩

theorem le_floorLog2 {num den : Nat} {n : Int} (hnum : 0 < num) (hden : 0 < den)
    (h : (2 : ℚ) ^ n ≤ num / den) : n ≤ floorLog2 num den := by
  have hspec := (floorLog2_spec hnum hden).2
  have := (zpow_lt_zpow_iff_right₀ (one_lt_two : (1 : ℚ) < 2)).1 (h.trans_lt hspec)
  omega

theorem floorLog2_lt {num den : Nat} {n : Int} (hnum : 0 < num) (hden : 0 < den)
    (h : (num / den : ℚ) < 2 ^ n) : floorLog2 num den < n := by
  have hspec := (floorLog2_spec hnum hden).1
  exact (zpow_lt_zpow_iff_right₀ (one_lt_two : (1 : ℚ) < 2)).1 (hspec.trans_lt h)

theorem nearestBits_eq_roundScaled {num den : Nat} (hnum : 0 < num) (e : Int)
    (he : max (floorLog2 num den - 52) leastExponent = e) :
    nearestBits num den =
      min infinityBits ((e - leastExponent).toNat * 2 ^ 52 + roundScaled num den e) := by
  subst he
  unfold nearestBits roundScaled
  rw [if_neg hnum.ne']

theorem IsDouble.bitsOf_lt {m : Nat} {e : Int} (h : IsDouble m e) : bitsOf m e < infinityBits := by
  have := h.lt
  have := h.least_le
  have := h.le_most
  unfold bitsOf infinityBits leastExponent at *
  omega

namespace RoundsTo

variable {m : Nat} {e : Int} {v : ℚ}

theorem pos (hd : IsDouble m e) (h : RoundsTo m e v) : 0 < v := by
  have hr : (reach m e : ℚ) ≤ 2 := by exact_mod_cast reach_le_two m e
  have hm : (1 : ℚ) ≤ m := by exact_mod_cast hd.pos
  have hw : 0 < v / 2 ^ e := by linarith [h.low_le]
  have hu : (0 : ℚ) < 2 ^ e := by positivity
  exact (div_pos_iff_of_pos_right hu).1 hw

theorem isNear (h : RoundsTo m e v) : IsNear m (v / 2 ^ e) := by
  have hr : (reach m e : ℚ) ≤ 2 := by exact_mod_cast reach_le_two m e
  refine ⟨?_, ?_, fun hk => ?_, fun hk => ?_⟩
  · linarith [h.low_le]
  · linarith [h.le_high]
  · linarith [h.low_lt hk]
  · linarith [h.lt_high hk]

theorem lt_two_pow (hd : IsDouble m e) (h : RoundsTo m e v) : v < 2 ^ (e + 53) := by
  have hu : (0 : ℚ) < 2 ^ e := by positivity
  have hm : (m : ℚ) + 1 ≤ 2 ^ 53 := by exact_mod_cast hd.lt
  have hw : v / 2 ^ e < 2 ^ 53 := by linarith [h.le_high]
  rw [div_lt_iff₀ hu] at hw
  rw [add_comm, zpow_add₀ two_ne_zero]
  exact_mod_cast hw

theorem two_pow_le (h : RoundsTo m e v) (hm : 2 ^ 52 ≤ m) : 2 ^ (e + 51) ≤ v := by
  have hu : (0 : ℚ) < 2 ^ e := by positivity
  have hmq : (2 ^ 52 : ℚ) ≤ m := by exact_mod_cast hm
  have hr : (reach m e : ℚ) ≤ 2 := by exact_mod_cast reach_le_two m e
  rw [add_comm, zpow_add₀ two_ne_zero, ← le_div_iff₀ hu]
  have hw : (2 : ℚ) ^ 51 ≤ v / 2 ^ e := by linarith [h.low_le]
  exact_mod_cast hw

/-- Of the doubles that are not the least ones, only a power of two has reals rounding to it whose
own unit is the half. -/
theorem eq_of_lt (hd : IsDouble m e) (h : RoundsTo m e v) (he : leastExponent < e)
    (hv : v < 2 ^ (e + 52)) : m = 2 ^ 52 := by
  have hu : (0 : ℚ) < 2 ^ e := by positivity
  rw [add_comm, zpow_add₀ two_ne_zero, ← div_lt_iff₀ hu] at hv
  have hw : v / 2 ^ e < 2 ^ 52 := by exact_mod_cast hv
  have hm : 2 ^ 52 ≤ m := hd.normal.resolve_left (by omega)
  by_contra hne
  have hmq : (2 ^ 52 + 1 : ℚ) ≤ m := by exact_mod_cast Nat.lt_of_le_of_ne hm (Ne.symm hne)
  have hr : (reach m e : ℚ) ≤ 2 := by exact_mod_cast reach_le_two m e
  linarith [h.low_le]

theorem isNear_halved (h : RoundsTo (2 ^ 52) e v) (he : leastExponent < e)
    (hv : v < 2 ^ (e + 52)) : IsNear (2 ^ 53) (v / 2 ^ (e - 1)) := by
  have hu : (0 : ℚ) < 2 ^ e := by positivity
  rw [add_comm, zpow_add₀ two_ne_zero, ← div_lt_iff₀ hu] at hv
  have hw : v / 2 ^ e < 2 ^ 52 := by exact_mod_cast hv
  have hhalf : v / 2 ^ (e - 1) = 2 * (v / 2 ^ e) := by
    rw [zpow_sub_one₀ two_ne_zero]
    field_simp
  have hr : (reach (2 ^ 52) e : ℚ) = 1 := by simp [reach, he]
  have hlow := h.low_le
  rw [hr] at hlow
  rw [hhalf]
  push_cast at hlow
  refine ⟨?_, ?_, fun hk => ?_, fun hk => ?_⟩
  · push_cast
    linarith
  · push_cast
    linarith
  · omega
  · omega

end RoundsTo

/-- The bits nearest to a ratio that rounds to a double are those of the double. -/
theorem nearestBits_of_roundsTo {num den m : Nat} {e : Int} (hden : 0 < den) (hd : IsDouble m e)
    (h : RoundsTo m e (num / den)) : nearestBits num den = bitsOf m e := by
  have hdq : (0 : ℚ) < den := by exact_mod_cast hden
  have hnum : 0 < num := by
    have := (div_pos_iff_of_pos_right hdq).1 (h.pos hd)
    exact_mod_cast this
  have hleast := hd.least_le
  have hbits := hd.bitsOf_lt
  have hhigh := floorLog2_lt hnum hden (h.lt_two_pow hd)
  have hown : max (floorLog2 num den - 52) leastExponent = e →
      nearestBits num den = bitsOf m e := fun hlog => by
    rw [nearestBits_eq_roundScaled hnum e hlog, roundScaled_of_isNear hden h.isNear]
    exact min_eq_right hbits.le
  rcases lt_or_ge (num / den : ℚ) (2 ^ (e + 52)) with hlow | hlow
  · have hlog := floorLog2_lt hnum hden hlow
    rcases hleast.eq_or_lt with heq | hlt
    · exact hown (by omega)
    · -- The unit of the ratio is half that of the double, so it rounds up to twice the mantissa.
      obtain rfl := h.eq_of_lt hd hlt hlow
      have hge := le_floorLog2 hnum hden (h.two_pow_le le_rfl)
      rw [nearestBits_eq_roundScaled hnum (e - 1) (by omega),
        roundScaled_of_isNear hden (h.isNear_halved hlt hlow)]
      unfold bitsOf at *
      omega
  · have hlog := le_floorLog2 hnum hden hlow
    exact hown (by omega)

end Lox.Decimal
