import Lox.Decimal.Reading
import Lox.Proofs.Decimal.Nearest

/-!
Decimals and the doubles they read as. Main statements: a decimal among the reals that round to a
double reads as that double, and the shortest decimal of a double is among them.
-/

set_option autoImplicit false

namespace Lox.Decimal

/-- The number that a decimal denotes. -/
def value (d : Decimal) : ℚ := d.digits * 10 ^ d.exponent

theorem digits_pos {d : Decimal} (h : 0 < d.value) : 0 < d.digits := by
  rcases Nat.eq_zero_or_pos d.digits with hz | hp
  · simp [value, hz] at h
  · exact hp

theorem lt_ten_pow_width (n : Nat) : n < 10 ^ width n :=
  (Nat.length_toDigits_le_iff (by decide) Nat.length_toDigits_pos).1 (Nat.le_refl _)

theorem ten_pow_width_le {n : Nat} (h : 0 < n) : 10 ^ (width n - 1) ≤ n := by
  rcases Nat.eq_zero_or_pos (width n - 1) with hz | hp
  · rw [hz]
    exact h
  · by_contra hlt
    have hle := (Nat.length_toDigits_le_iff (by decide) hp).2 (Nat.lt_of_not_le hlt)
    change width n ≤ width n - 1 at hle
    omega

theorem width_pos (n : Nat) : 0 < width n := Nat.length_toDigits_pos

theorem value_lt (d : Decimal) : d.value < 10 ^ (d.exponent + width d.digits) := by
  have hlt : (d.digits : ℚ) < 10 ^ (width d.digits : Int) := by
    exact_mod_cast lt_ten_pow_width d.digits
  rw [add_comm, zpow_add₀ (by norm_num)]
  unfold value
  gcongr

theorem le_value {d : Decimal} (h : 0 < d.digits) :
    10 ^ (d.exponent + width d.digits - 1) ≤ d.value := by
  have hle : (10 : ℚ) ^ ((width d.digits - 1 : Nat) : Int) ≤ d.digits := by
    exact_mod_cast ten_pow_width_le h
  have hw := width_pos d.digits
  have hsum : d.exponent + width d.digits - 1 = ((width d.digits - 1 : Nat) : Int) + d.exponent := by
    omega
  rw [hsum, zpow_add₀ (by norm_num)]
  unfold value
  gcongr

theorem RoundsTo.two_pow_lt {m : Nat} {e : Int} {v : ℚ} (hd : IsDouble m e)
    (h : RoundsTo m e v) : 2 ^ (-1076 : Int) < v := by
  have hr : (reach m e : ℚ) ≤ 2 := by exact_mod_cast reach_le_two m e
  have hm : (1 : ℚ) ≤ m := by exact_mod_cast hd.pos
  have hu : (0 : ℚ) < 2 ^ e := by positivity
  have hw : (2 : ℚ)⁻¹ ≤ v / 2 ^ e := by linarith [h.low_le]
  have hleast := hd.least_le
  unfold leastExponent at hleast
  calc (2 : ℚ) ^ (-1076 : Int) < 2 ^ (e - 1) := zpow_lt_zpow_right₀ (by norm_num) (by omega)
    _ = 2⁻¹ * 2 ^ e := by rw [zpow_sub_one₀ two_ne_zero, mul_comm]
    _ ≤ v := (le_div_iff₀ hu).1 hw

/-- The decimals of doubles stay far inside the range in which a decimal is read exactly. -/
theorem top_bounds {d : Decimal} {m : Nat} {e : Int} (hd : IsDouble m e)
    (h : RoundsTo m e d.value) :
    -400 ≤ d.exponent + width d.digits ∧ d.exponent + width d.digits ≤ 400 := by
  constructor
  · by_contra hlt
    have hnat : 2 ^ 1076 ≤ 10 ^ 401 := by decide +kernel
    have hpow : (2 : ℚ) ^ 1076 ≤ 10 ^ 401 := by exact_mod_cast hnat
    have hsmall : (10 : ℚ) ^ (-401 : Int) ≤ 2 ^ (-1076 : Int) := inv_anti₀ (by positivity) hpow
    have hvalue := calc d.value
      _ < 10 ^ (d.exponent + width d.digits) := d.value_lt
      _ ≤ 10 ^ (-401 : Int) := zpow_le_zpow_right₀ (by norm_num) (by omega)
      _ ≤ 2 ^ (-1076 : Int) := hsmall
    exact hvalue.not_gt (h.two_pow_lt hd)
  · by_contra hlt
    have hmost := hd.le_most
    have hlarge : (2 : ℚ) ^ (1024 : Int) ≤ 10 ^ (400 : Int) := by
      exact_mod_cast (by decide +kernel : 2 ^ 1024 ≤ 10 ^ 400)
    have hvalue := calc d.value
      _ < 2 ^ (e + 53) := h.lt_two_pow hd
      _ ≤ 2 ^ (1024 : Int) := zpow_le_zpow_right₀ (by norm_num) (by omega)
      _ ≤ 10 ^ (400 : Int) := hlarge
      _ ≤ 10 ^ (d.exponent + width d.digits - 1) := zpow_le_zpow_right₀ (by norm_num) (by omega)
    exact hvalue.not_ge (le_value (digits_pos (h.pos hd)))

/-- A decimal among the reals that round to a double reads as the double. -/
theorem toBits_of_roundsTo {d : Decimal} {m : Nat} {e : Int} (hd : IsDouble m e)
    (h : RoundsTo m e d.value) : d.toBits = bitsOf m e := by
  have hpos := digits_pos (h.pos hd)
  obtain ⟨hlow, hhigh⟩ := top_bounds hd h
  unfold toBits
  rw [if_neg (by omega), if_neg (by omega)]
  split
  next he =>
    obtain ⟨n, hn⟩ := Int.eq_ofNat_of_zero_le he
    refine nearestBits_of_roundsTo Nat.one_pos hd ?_
    simpa [value, hn] using h
  next he =>
    obtain ⟨n, hn⟩ : ∃ n : Nat, d.exponent = -n := ⟨(-d.exponent).toNat, by omega⟩
    refine nearestBits_of_roundsTo (by positivity) hd ?_
    simpa [value, hn, div_eq_mul_inv] using h

theorem value_trim (turns : Nat) (d : Decimal) : (trim turns d).value = d.value := by
  induction turns generalizing d with
  | zero => rfl
  | succ turns ih =>
    unfold trim
    split
    next h =>
      rw [ih]
      have hdiv : (d.digits / 10 : Nat) * (10 : ℚ) = d.digits := by
        exact_mod_cast Nat.div_mul_cancel (Nat.dvd_of_mod_eq_zero h.2)
      simp only [value]
      rw [zpow_add_one₀ (by norm_num), ← hdiv]
      ring
    next => rfl

theorem value_exact (m : Nat) (e : Int) : (exact m e).value = m * 2 ^ e := by
  unfold exact
  split
  next h =>
    obtain ⟨n, rfl⟩ := Int.eq_ofNat_of_zero_le h
    simp [value]
  next h =>
    obtain ⟨n, rfl⟩ : ∃ n : Nat, e = -n := ⟨(-e).toNat, by omega⟩
    have hten : (10 : ℚ) ^ n = 5 ^ n * 2 ^ n := by rw [← mul_pow]; norm_num
    simp [value, hten]
    field_simp

theorem roundsTo_self {m : Nat} {e : Int} : RoundsTo m e (m * 2 ^ e) := by
  have hr : (1 : ℚ) ≤ reach m e := by exact_mod_cast one_le_reach m e
  have hw : (m * 2 ^ e / 2 ^ e : ℚ) = m := by field_simp
  refine ⟨?_, ?_, fun _ => ?_, fun _ => ?_⟩ <;> rw [hw] <;> linarith

namespace Interval

theorem den_pos (m : Nat) (e : Int) : 0 < (around m e).den := by
  unfold around
  simp only
  split <;> positivity

/-- How many quarters of a double's unit lie below a point, as a ratio over the denominator. -/
theorem quarters_eq (m : Nat) (e : Int) (v : ℚ) :
    ∃ unit : Nat, 0 < unit ∧ (around m e).low = (4 * m - reach m e) * unit ∧
      (around m e).high = (4 * m + 2) * unit ∧ 4 * (v / 2 ^ e) * unit = v * (around m e).den := by
  refine ⟨if 2 ≤ e then 2 ^ (e - 2).toNat else 1, by split <;> positivity, rfl, rfl, ?_⟩
  unfold around
  simp only
  have hfour : (2 : ℚ) ^ e = 2 ^ (e - 2) * 4 := by
    rw [zpow_sub₀ two_ne_zero]
    norm_num
  rw [hfour]
  split
  next he =>
    obtain ⟨n, hn⟩ := Int.eq_ofNat_of_zero_le (Int.sub_nonneg_of_le he)
    rw [hn, Int.toNat_natCast, zpow_natCast]
    push_cast
    field_simp
  next he =>
    obtain ⟨n, hn⟩ : ∃ n : Nat, 2 - e = n := ⟨(2 - e).toNat, by omega⟩
    rw [show e - 2 = -(n : Int) by omega, hn, Int.toNat_natCast, zpow_neg, zpow_natCast]
    push_cast
    field_simp

theorem roundsTo_of_holds {m : Nat} {e : Int} {scale point : Nat} (hd : IsDouble m e)
    (hs : 0 < scale) (h : (around m e).holds scale point = true) :
    RoundsTo m e (point / (scale * (around m e).den)) := by
  have hden : (0 : ℚ) < (around m e).den := by exact_mod_cast den_pos m e
  have hsq : (0 : ℚ) < scale := by exact_mod_cast hs
  have hreach : reach m e ≤ 4 * m := by
    have := reach_le_two m e
    have := hd.pos
    omega
  obtain ⟨unit, hunit, hlow, hhigh, hv⟩ := quarters_eq m e (point / (scale * (around m e).den))
  have huq : (0 : ℚ) < unit := by exact_mod_cast hunit
  have hpoint : 4 * (point / (scale * (around m e).den) / 2 ^ e) * (unit * scale) = (point : ℚ) := by
    rw [← mul_assoc, hv]
    field_simp
  have hus : (0 : ℚ) < unit * scale := by positivity
  have hlowq : (((4 * m - reach m e) * unit * scale : Nat) : ℚ) =
      (4 * m - reach m e) * (unit * scale) := by
    push_cast [Nat.cast_sub hreach]
    ring
  have hhighq : (((4 * m + 2) * unit * scale : Nat) : ℚ) = (4 * m + 2) * (unit * scale) := by
    push_cast
    ring
  unfold holds at h
  rw [hlow, hhigh] at h
  by_cases heven : m % 2 = 0
  · have hclosed : (around m e).closed = true := by simp [around, heven]
    simp only [hclosed, ↓reduceIte, Bool.and_eq_true, decide_eq_true_eq] at h
    have hl : (((4 * m - reach m e) * unit * scale : Nat) : ℚ) ≤ point := by exact_mod_cast h.1
    have hh : (point : ℚ) ≤ ((4 * m + 2) * unit * scale : Nat) := by exact_mod_cast h.2
    rw [hlowq, ← hpoint] at hl
    rw [hhighq, ← hpoint] at hh
    exact ⟨le_of_mul_le_mul_right hl hus, le_of_mul_le_mul_right hh hus, by omega, by omega⟩
  · have hopen : (around m e).closed = false := by simp [around, heven]
    simp only [hopen, Bool.false_eq_true, ↓reduceIte, Bool.and_eq_true, decide_eq_true_eq] at h
    have hl : (((4 * m - reach m e) * unit * scale : Nat) : ℚ) < point := by exact_mod_cast h.1
    have hh : (point : ℚ) < ((4 * m + 2) * unit * scale : Nat) := by exact_mod_cast h.2
    rw [hlowq, ← hpoint] at hl
    rw [hhighq, ← hpoint] at hh
    have hl := lt_of_mul_lt_mul_right hl hus.le
    have hh := lt_of_mul_lt_mul_right hh hus.le
    exact ⟨hl.le, hh.le, fun _ => hl, fun _ => hh⟩

/-- What a point of a grid is multiplied by to be compared without fractions. -/
def gridScale (power : Int) : Nat := if 0 ≤ power then 1 else 10 ^ (-power).toNat

def gridStep (i : Interval) (power : Int) : Nat :=
  (if 0 ≤ power then 10 ^ power.toNat else 1) * i.den

theorem holds_of_onGrid? {i : Interval} {power : Int} {d : Decimal}
    (h : i.onGrid? power = some d) :
    d.exponent = power ∧ i.holds (gridScale power) (d.digits * i.gridStep power) = true := by
  unfold onGrid? at h
  extract_lets scale step value below down up rest nearer at h
  have hnearer : nearer = below ∨ nearer = below + 1 := by
    unfold nearer
    split <;> simp
  have hdown : down = i.holds scale (below * step) := rfl
  have hup : up = i.holds scale ((below + 1) * step) := rfl
  clear_value down up
  split at h <;> cases h
  next =>
    refine ⟨rfl, ?_⟩
    rcases hnearer with hn | hn
    · rw [hn]
      exact hdown.symm
    · rw [hn]
      exact hup.symm
  next => exact ⟨rfl, hdown.symm⟩
  next => exact ⟨rfl, hup.symm⟩

theorem point_eq {i : Interval} (hden : 0 < i.den) (n : Nat) (power : Int) :
    ((n * i.gridStep power : Nat) / (gridScale power * i.den) : ℚ) = n * 10 ^ power := by
  unfold gridStep gridScale
  split
  next h =>
    obtain ⟨k, rfl⟩ := Int.eq_ofNat_of_zero_le h
    simp
    field_simp
  next h =>
    obtain ⟨k, rfl⟩ : ∃ k : Nat, power = -k := ⟨(-power).toNat, by omega⟩
    simp
    field_simp

theorem roundsTo_of_onGrid? {m : Nat} {e power : Int} {d : Decimal} (hd : IsDouble m e)
    (h : (around m e).onGrid? power = some d) : RoundsTo m e d.value := by
  obtain ⟨hpower, hholds⟩ := holds_of_onGrid? h
  have hscale : 0 < gridScale power := by
    unfold gridScale
    split <;> positivity
  have hrounds := roundsTo_of_holds hd hscale hholds
  rwa [point_eq (den_pos m e), ← hpower] at hrounds

end Interval

/-- The shortest decimal of a double is among the reals that round to it. -/
theorem roundsTo_shortest {m : Nat} {e : Int} (hd : IsDouble m e) :
    RoundsTo m e (shortest m e).value := by
  unfold shortest
  simp only
  split
  next d h =>
    obtain ⟨count, -, hgrid⟩ := List.exists_of_findSome?_eq_some h
    rw [value_trim]
    exact Interval.roundsTo_of_onGrid? hd hgrid
  next =>
    rw [value_exact]
    exact roundsTo_self

end Lox.Decimal
