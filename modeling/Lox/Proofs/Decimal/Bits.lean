import Mathlib
import Lox.Proofs.Decimal.Shortest

/-!
Doubles and their bits: which bits stand for which double, and what the sign does to them.
-/

set_option autoImplicit false

namespace Lox.Decimal

open Float.Model Float.Model.UnpackedFloat

theorem ofBits_toBits_toNat (x : Float) : Float.ofBits (.ofNat x.toBits.toNat) = x := by
  rw [UInt64.ofNat_toNat, Float.ofBits_toBits]

def signBit (negative : Bool) : Nat := if negative then 2 ^ 63 else 0

theorem signBit_add {bits : Nat} (h : bits < 2 ^ 64) :
    bits = signBit (bits / 2 ^ 63 % 2 == 1) + bits / 2 ^ 52 % 2 ^ 11 * 2 ^ 52 + bits % 2 ^ 52 := by
  unfold signBit
  split <;> simp_all <;> omega

theorem Binary.ofBits_eq_finite {bits m : Nat} {e : Int} {negative : Bool} (hbits : bits < 2 ^ 64)
    (h : Binary.ofBits bits = .finite negative m e) :
    bits = signBit negative + bitsOf m e ∧ (m = 0 ∧ bitsOf m e = 0 ∨ IsDouble m e) := by
  have hsplit := signBit_add hbits
  have hfield : bits / 2 ^ 52 % 2 ^ 11 < 2 ^ 11 := Nat.mod_lt _ (by decide)
  have hfraction : bits % 2 ^ 52 < 2 ^ 52 := Nat.mod_lt _ (by decide)
  unfold Binary.ofBits at h
  simp only at h
  generalize bits / 2 ^ 52 % 2 ^ 11 = field at *
  generalize bits % 2 ^ 52 = fraction at *
  split at h
  · split at h <;> cases h
  split at h
  next hzero =>
    obtain ⟨rfl, rfl, rfl⟩ := Binary.finite.injEq .. ▸ h
    have hown : bitsOf fraction leastExponent = fraction := by simp [bitsOf]
    refine ⟨by omega, ?_⟩
    rcases Nat.eq_zero_or_pos fraction with rfl | hpos
    · exact .inl ⟨rfl, hown⟩
    · exact .inr ⟨hpos, by omega, le_rfl, .inl rfl, by decide⟩
  next hzero =>
    obtain ⟨rfl, rfl, rfl⟩ := Binary.finite.injEq .. ▸ h
    have hleast : leastExponent = -1074 := rfl
    refine ⟨?_, .inr ⟨by omega, by omega, by omega, .inr (by omega), by omega⟩⟩
    unfold bitsOf
    omega

theorem Binary.ofBits_eq_infinite {bits : Nat} {negative : Bool} (hbits : bits < 2 ^ 64)
    (h : Binary.ofBits bits = .infinite negative) : bits = signBit negative + infinityBits := by
  have hsplit := signBit_add hbits
  unfold Binary.ofBits at h
  simp only at h
  split at h
  next hfield =>
    split at h <;> cases h
    unfold infinityBits
    omega
  next => split at h <;> cases h

theorem toNat_unpackSign (b : BitVec Format.binary64.numBits) :
    (unpackSign b).toNat = b.toNat / 2 ^ 63 % 2 := by
  rw [unpackSign_def, BitVec.extractLsb'_toNat, Nat.shiftRight_eq_div_pow]
  rfl

theorem toNat_unpackExponent (b : BitVec Format.binary64.numBits) :
    (unpackExponent b).toNat = b.toNat / 2 ^ 52 % 2 ^ 11 := by
  rw [unpackExponent_def, BitVec.extractLsb'_toNat, Nat.shiftRight_eq_div_pow]

theorem toNat_unpackMantissa (b : BitVec Format.binary64.numBits) :
    (unpackMantissa b).toNat = b.toNat % 2 ^ 52 := by
  rw [unpackMantissa_def, BitVec.extractLsb'_toNat, Nat.shiftRight_zero]

/-- All that are no numbers have the same bits. -/
theorem eq_of_nan {x : Float} (h : Binary.ofFloat x = .nan) : x = 0.0 / 0.0 := by
  have hexponent := toNat_unpackExponent x.toBits.toBitVec
  have hmantissa := toNat_unpackMantissa x.toBits.toBitVec
  unfold Binary.ofFloat Binary.ofBits at h
  simp only at h
  split at h
  next hfield =>
    split at h <;> cases h
    next hfraction =>
      have hx : x.toBits.toBitVec = packedNaN Format.binary64 := by
        refine x.toModel.valid.eq_packedNaN (BitVec.eq_of_toNat_eq ?_) fun hzero => hfraction ?_
        · exact hexponent.trans hfield
        · exact hmantissa.symm.trans (congrArg BitVec.toNat hzero)
      rw [← Float.toBits_inj, ← UInt64.toBitVec_inj, hx]
      decide +kernel
  next => split at h <;> cases h

/-- Unpacked, the bits of a number with a sign and without differ in the sign alone. -/
theorem unpack_signed {bits : Nat} (h : bits ≤ infinityBits) :
    UnpackedFloat.unpack Format.binary64 (BitVec.ofNat 64 (2 ^ 63 + bits)) =
      (UnpackedFloat.unpack Format.binary64 (BitVec.ofNat 64 bits)).neg := by
  have hlt : bits < 2 ^ 63 := Nat.lt_of_le_of_lt h (by decide)
  have hsigned : (BitVec.ofNat 64 (2 ^ 63 + bits)).toNat = 2 ^ 63 + bits := by
    rw [BitVec.toNat_ofNat]
    omega
  have hplain : (BitVec.ofNat 64 bits).toNat = bits := by
    rw [BitVec.toNat_ofNat]
    omega
  generalize BitVec.ofNat 64 (2 ^ 63 + bits) = b at *
  generalize BitVec.ofNat 64 bits = c at *
  have hexponent : @unpackExponent .binary64 b = @unpackExponent .binary64 c := by
    apply BitVec.eq_of_toNat_eq
    rw [toNat_unpackExponent, toNat_unpackExponent, hsigned, hplain]
    omega
  have hmantissa : @unpackMantissa .binary64 b = @unpackMantissa .binary64 c := by
    apply BitVec.eq_of_toNat_eq
    rw [toNat_unpackMantissa, toNat_unpackMantissa, hsigned, hplain]
    omega
  have hnegative : @unpackSign .binary64 b = 1#1 := by
    apply BitVec.eq_of_toNat_eq
    rw [toNat_unpackSign, hsigned, BitVec.toNat_ofNat]
    omega
  have hpositive : @unpackSign .binary64 c = 0#1 := by
    apply BitVec.eq_of_toNat_eq
    rw [toNat_unpackSign, hplain, BitVec.toNat_ofNat]
    omega
  unfold UnpackedFloat.unpack
  simp only [hexponent, hmantissa, hnegative, hpositive]
  split
  · split <;> rfl
  split
  · split <;> rfl
  · rfl

theorem valid_ofNat {bits : Nat} (h : bits ≤ infinityBits) :
    Format.binary64.Valid (BitVec.ofNat 64 bits) := by
  have hlt : bits < 2 ^ 63 := Nat.lt_of_le_of_lt h (by decide)
  have hbits : (BitVec.ofNat 64 bits).toNat = bits := by
    rw [BitVec.toNat_ofNat]
    omega
  refine ⟨fun he hm => absurd (BitVec.eq_of_toNat_eq ?_) hm⟩
  have hexponent := congrArg BitVec.toNat he
  rw [toNat_unpackExponent, hbits] at hexponent
  rw [toNat_unpackMantissa, hbits]
  change bits / 2 ^ 52 % 2 ^ 11 = 2047 at hexponent
  change bits % 2 ^ 52 = 0
  unfold infinityBits at h
  omega

theorem neg_ofBits {bits : Nat} (h : bits ≤ infinityBits) :
    -Float.ofBits (.ofNat bits) = Float.ofBits (.ofNat (2 ^ 63 + bits)) := by
  rw [← Float.toBits_inj, ← UInt64.toBitVec_inj]
  change pack Format.binary64 (unpack Format.binary64
    (pack Format.binary64 (unpack Format.binary64 (BitVec.ofNat 64 bits)))).neg =
      pack Format.binary64 (unpack Format.binary64 (BitVec.ofNat 64 (2 ^ 63 + bits)))
  have hvalid : Format.binary64.Valid (BitVec.ofNat 64 bits) := valid_ofNat (by omega)
  have hsigned : unpack Format.binary64 (BitVec.ofNat 64 (2 ^ 63 + bits)) =
    (unpack Format.binary64 (BitVec.ofNat 64 bits)).neg := unpack_signed h
  rw [pack_unpack_of_valid hvalid, hsigned]

theorem Binary.isDouble_of_finite {x : Float} {negative : Bool} {m : Nat} {e : Int}
    (h : Binary.ofFloat x = .finite negative m e) (hm : m ≠ 0) :
    x.toBits.toNat = signBit negative + bitsOf m e ∧ IsDouble m e := by
  obtain ⟨hbits, hzero | hdouble⟩ := Binary.ofBits_eq_finite x.toBits.toNat_lt h
  · exact absurd hzero.1 hm
  · exact ⟨hbits, hdouble⟩

theorem digits_shortest_pos {x : Float} {negative : Bool} {m : Nat} {e : Int}
    (h : Binary.ofFloat x = .finite negative m e) (hm : m ≠ 0) : 0 < (shortest m e).digits := by
  obtain ⟨-, hdouble⟩ := Binary.isDouble_of_finite h hm
  exact digits_pos ((roundsTo_shortest hdouble).pos hdouble)

/-- A decimal that rounds to a double is read as it, up to the sign. -/
theorem toFloat_of_roundsTo {x : Float} {negative : Bool} {m : Nat} {e : Int}
    (h : Binary.ofFloat x = .finite negative m e) (hm : m ≠ 0) {d : Decimal}
    (hd : RoundsTo m e d.value) : (if negative then -d.toFloat else d.toFloat) = x := by
  obtain ⟨hbits, hdouble⟩ := Binary.isDouble_of_finite h hm
  have hread : d.toBits = bitsOf m e := toBits_of_roundsTo hdouble hd
  rw [← ofBits_toBits_toNat x, hbits]
  unfold toFloat
  rw [hread]
  cases negative with
  | false => simp [signBit]
  | true => simpa [signBit] using neg_ofBits hdouble.bitsOf_lt.le

/-- A decimal that denotes what the shortest one denotes is read as the double, up to the sign. -/
theorem toFloat_of_value_eq {x : Float} {negative : Bool} {m : Nat} {e : Int}
    (h : Binary.ofFloat x = .finite negative m e) (hm : m ≠ 0) {d : Decimal}
    (hd : d.value = (shortest m e).value) : (if negative then -d.toFloat else d.toFloat) = x :=
  toFloat_of_roundsTo h hm (hd ▸ roundsTo_shortest (Binary.isDouble_of_finite h hm).2)

theorem toFloat_of_zero {x : Float} {negative : Bool} {e : Int}
    (h : Binary.ofFloat x = .finite negative 0 e) {d : Decimal} (hd : d.digits = 0) :
    (if negative then -d.toFloat else d.toFloat) = x := by
  obtain ⟨hbits, hzero | hdouble⟩ := Binary.ofBits_eq_finite x.toBits.toNat_lt h
  · have hread : d.toBits = 0 := by simp [toBits, hd]
    rw [← ofBits_toBits_toNat x, hbits, hzero.2]
    unfold toFloat
    rw [hread]
    cases negative with
    | false => rfl
    | true => exact neg_ofBits (Nat.zero_le _)
  · exact absurd hdouble.pos (Nat.lt_irrefl 0)

theorem eq_of_infinite {x : Float} {negative : Bool} (h : Binary.ofFloat x = .infinite negative) :
    x = if negative then -1.0 / 0.0 else 1.0 / 0.0 := by
  have hbits := Binary.ofBits_eq_infinite x.toBits.toNat_lt h
  rw [← ofBits_toBits_toNat x, hbits]
  cases negative with
  | false => decide +kernel
  | true => decide +kernel

end Lox.Decimal
