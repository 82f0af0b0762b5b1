import BlockScript.Number
import BlockScript.Proofs.Number.Rounding
import Mathlib

/-!
Floats and their codes. A float that is a number is a sign and a magnitude code in its bits; the
number it stands for, its negation and its place in the order go by the code.
-/
namespace BlockScript.Number
open Float.Model Float.Model.UnpackedFloat Binary64

/-- The number that a float stands for, if it is finite. -/
def rational? (x : Float) : Option ℚ :=
  match x.toModel.unpack with
  | .zero _ => some 0
  | .finite sign significand exponent _ => some (sign.apply significand * 2 ^ exponent)
  | .infinity _ | .notANumber => none

/-- The significand of a float, without its sign. -/
def significand (x : Float) : Nat :=
  match x.toModel.unpack with
  | .finite _ significand _ _ => significand
  | _ => 0

section Fields
variable (b : BitVec 64)

private theorem toNat_unpackExponent :
    (@unpackExponent .binary64 b).toNat = b.toNat / 2 ^ 52 % 2 ^ 11 := by
  rw [unpackExponent_def, BitVec.extractLsb'_toNat, Nat.shiftRight_eq_div_pow]

private theorem toNat_unpackMantissa :
    (@unpackMantissa .binary64 b).toNat = b.toNat % 2 ^ 52 := by
  rw [unpackMantissa_def, BitVec.extractLsb'_toNat, Nat.shiftRight_zero]

private theorem toNat_unpackSign : (@unpackSign .binary64 b).toNat = b.toNat / 2 ^ 63 % 2 := by
  rw [unpackSign_def, BitVec.extractLsb'_toNat, Nat.shiftRight_eq_div_pow]
  rfl

end Fields

def signOf (negative : Bool) : Sign := if negative then .negative else .positive

/-- What a sign and a code stand for, in the terms of the standard. -/
def unpacked (negative : Bool) (code : Nat) : UnpackedFloat :=
  if code = Binary64.infinity then .infinity (signOf negative)
  else if hzero : code = 0 then .zero (signOf negative)
  else if code < binadeSize then
    .finite (signOf negative) code (-1074) (Nat.pos_of_ne_zero hzero)
  else
    .finite (signOf negative) (binadeSize + code % binadeSize) (code / binadeSize - 1075)
      (Nat.add_pos_left binadeSize_pos _)

section Codes
variable {negative : Bool} {code : Nat}

private theorem infinity_eq_literal : Binary64.infinity = 9218868437227405312 := rfl

theorem toNat_bits (h : code ≤ Binary64.infinity) :
    (UInt64.ofNat (if negative then signBit + code else code)).toBitVec.toNat =
      if negative then signBit + code else code := by
  have hsign : signBit = 9223372036854775808 := rfl
  rw [infinity_eq_literal] at h
  change (UInt64.ofNat _).toNat = _
  rw [UInt64.toNat_ofNat', hsign]
  apply Nat.mod_eq_of_lt
  split_ifs <;> omega

private theorem unpack_bits {b : BitVec 64} (h : code ≤ Binary64.infinity)
    (hb : b.toNat = if negative then signBit + code else code) :
    UnpackedFloat.unpack .binary64 b = unpacked negative code := by
  have hsize : binadeSize = 4503599627370496 := rfl
  have hsign : signBit = 9223372036854775808 := rfl
  rw [infinity_eq_literal] at h
  have hexponent : (@unpackExponent .binary64 b).toNat = code / binadeSize := by
    rw [toNat_unpackExponent, hb, hsize, hsign]
    split_ifs <;> omega
  have hmantissa : (@unpackMantissa .binary64 b).toNat = code % binadeSize := by
    rw [toNat_unpackMantissa, hb, hsize, hsign]
    split_ifs <;> omega
  have hsigns : Sign.ofBitVec (@unpackSign .binary64 b) = signOf negative := by
    have hbit : (@unpackSign .binary64 b).toNat = if negative then 1 else 0 := by
      rw [toNat_unpackSign, hb, hsign]
      split_ifs <;> omega
    cases negative
    · rw [BitVec.eq_of_toNat_eq (y := 0#1) hbit]
      rfl
    · rw [BitVec.eq_of_toNat_eq (y := 1#1) hbit]
      rfl
  have hone (m : BitVec 52) : (1#1 ++ m).toNat = binadeSize + m.toNat := by
    rw [BitVec.toNat_append, ← Nat.shiftLeft_add_eq_or_of_lt m.isLt]
    rfl
  have hones : (-1#11).toNat = 2047 := rfl
  have hbias : (Format.binary64.exponentBias : Int) + 52 = 1075 := rfl
  rw [UnpackedFloat.unpack, unpacked]
  simp only [← BitVec.toNat_inj, hexponent, hmantissa, hsigns, hone, hones, BitVec.toNat_ofNat,
    Nat.zero_mod, Nat.cast_ofNat, hbias, infinity_eq_literal, hsize]
  by_cases hlimit : code = 9218868437227405312
  · rw [if_pos hlimit, if_pos (by omega), if_pos (by omega)]
  rw [if_neg hlimit, if_neg (by omega)]
  by_cases hzero : code = 0
  · rw [dif_pos hzero, if_pos (by omega), dif_pos (by omega)]
  rw [dif_neg hzero]
  by_cases hlow : code < 4503599627370496
  · rw [if_pos hlow, if_pos (by omega), dif_neg (by omega)]
    simp only [Nat.mod_eq_of_lt hlow, Nat.div_eq_of_lt hlow]
    rfl
  · rw [if_neg hlow, if_neg (by omega)]
    rfl

theorem unpacked_infinity (negative : Bool) :
    unpacked negative Binary64.infinity = .infinity (signOf negative) := by
  rw [unpacked, if_pos rfl]

theorem unpacked_zero (negative : Bool) : unpacked negative 0 = .zero (signOf negative) := by
  rw [unpacked, if_neg (by decide), dif_pos rfl]

/-- A finite code has a significand and an exponent. -/
private theorem unpacked_parts {exponent significand : Nat} (negative : Bool)
    (h : exponent = 0 ∨ binadeSize ≤ significand) (hs : significand < 2 * binadeSize)
    (hfinite : exponent * binadeSize + significand < Binary64.infinity) (hpos : 0 < significand) :
    unpacked negative (exponent * binadeSize + significand) =
      .finite (signOf negative) significand (exponent - 1074) hpos := by
  rw [unpacked, if_neg hfinite.ne, dif_neg (by omega)]
  rcases Nat.lt_or_ge significand binadeSize with hlow | hhigh
  · obtain rfl : exponent = 0 := h.resolve_right (Nat.not_le.mpr hlow)
    simp only [Nat.zero_mul, Nat.zero_add, if_pos hlow]
    rfl
  · obtain ⟨fraction, rfl⟩ := Nat.exists_eq_add_of_le hhigh
    have hcode : exponent * binadeSize + (binadeSize + fraction) =
        (exponent + 1) * binadeSize + fraction := by
      rw [Nat.succ_mul, Nat.add_assoc]
    have hdiv : ((exponent + 1) * binadeSize + fraction) / binadeSize = exponent + 1 := by
      rw [Nat.mul_comm, Nat.mul_add_div binadeSize_pos, Nat.div_eq_of_lt (by omega), Nat.add_zero]
    have hexponent : ((exponent + 1 : Nat) : Int) - 1075 = exponent - 1074 := by omega
    rw [if_neg (by omega)]
    simp only [hcode, Nat.mul_add_mod_of_lt (show fraction < binadeSize by omega),
      ← Int.natCast_ediv, hdiv, hexponent]

private theorem exists_unpacked_parts {code : Nat} (hpos : 0 < code)
    (h : code < Binary64.infinity) :
    ∃ (exponent significand : Nat) (hs : 0 < significand),
      code = exponent * binadeSize + significand ∧ (exponent = 0 ∨ binadeSize ≤ significand) ∧
        significand < 2 * binadeSize ∧ ∀ negative, unpacked negative code =
          .finite (signOf negative) significand (exponent - 1074) hs := by
  obtain ⟨exponent, significand, rfl, hparts, hlt⟩ := exists_parts code
  have hs : 0 < significand := by
    rcases hparts with rfl | hparts
    · omega
    · exact Nat.lt_of_lt_of_le binadeSize_pos hparts
  exact ⟨exponent, significand, hs, rfl, hparts, hlt, fun negative =>
    unpacked_parts negative hparts hlt h hs⟩

private theorem isNaNBits_eq_false {b : BitVec 64}
    (h : UnpackedFloat.unpack .binary64 b ≠ .notANumber) :
    @isNaNBits .binary64 b = false := by
  rw [isNaNBits, decide_eq_false_iff_not]
  rintro ⟨hexponent, hmantissa⟩
  apply h
  rw [UnpackedFloat.unpack]
  simp only [if_pos hexponent, if_neg hmantissa]

private theorem unpacked_ne_notANumber (negative : Bool) (code : Nat) :
    unpacked negative code ≠ .notANumber := by
  rw [unpacked]
  split_ifs <;> exact UnpackedFloat.noConfusion

/-- The float of a sign and a code has just the bits that it is made from. -/
theorem toBits_ofCode (h : code ≤ Binary64.infinity) :
    (ofCode negative code).toBits.toBitVec =
      (UInt64.ofNat (if negative then signBit + code else code)).toBitVec := by
  have hunpack : UnpackedFloat.unpack .binary64 _ = unpacked negative code :=
    unpack_bits h (toNat_bits h)
  change UnpackedFloat.pack .binary64 (UnpackedFloat.unpack .binary64 _) = _
  rw [pack_unpack, if_neg]
  rw [isNaNBits_eq_false]
  · exact Bool.false_ne_true
  · rw [hunpack]
    exact unpacked_ne_notANumber negative code

theorem unpack_ofCode (h : code ≤ Binary64.infinity) :
    (ofCode negative code).toModel.unpack = unpacked negative code := by
  change UnpackedFloat.unpack .binary64 (ofCode negative code).toBits.toBitVec = _
  rw [toBits_ofCode h]
  exact unpack_bits h (toNat_bits h)

private theorem toModel_ofCode (h : code ≤ Binary64.infinity) :
    (ofCode negative code).toModel = Float.Model.pack (unpacked negative code) :=
  congrArg Float.Model.pack (unpack_bits h (toNat_bits h))

private theorem unpacked_neg (negative : Bool) (code : Nat) :
    (unpacked negative code).neg = unpacked (!negative) code := by
  have hsign : -signOf negative = signOf !negative := by cases negative <;> rfl
  rw [unpacked, unpacked, ← hsign]
  split_ifs <;> rfl

theorem neg_ofCode (h : code ≤ Binary64.infinity) :
    -ofCode negative code = ofCode (!negative) code := by
  have hneg : (-ofCode negative code).toModel =
      Float.Model.pack (ofCode negative code).toModel.unpack.neg := rfl
  rw [unpack_ofCode h, unpacked_neg, ← toModel_ofCode h] at hneg
  exact congrArg Float.ofModel hneg

theorem rational?_ofCode (h : code < Binary64.infinity) :
    rational? (ofCode negative code) =
      some (if negative then -magnitude code else magnitude code) := by
  rw [rational?, unpack_ofCode h.le]
  rcases Nat.eq_zero_or_pos code with rfl | hpos
  · rw [unpacked_zero, magnitude_zero]
    cases negative <;> rfl
  · obtain ⟨exponent, significand, _, rfl, hparts, hlt, hunpacked⟩ := exists_unpacked_parts hpos h
    have hmagnitude : magnitude (exponent * binadeSize + significand) =
        significand * 2 ^ ((exponent : ℤ) - 1074) := by
      rw [magnitude, units_add hparts hlt.le, unitsInOne_eq, zpow_sub₀ two_ne_zero, Nat.cast_mul,
        Nat.cast_pow, Nat.cast_pow, mul_div_assoc]
      rfl
    rw [hunpacked, hmagnitude]
    cases negative <;> simp [signOf, Sign.apply]

/-- The parity of a significand is that of its code. -/
theorem even_significand_ofCode (h : code < Binary64.infinity) :
    Even (significand (ofCode negative code)) ↔ Even code := by
  rw [significand, unpack_ofCode h.le]
  rcases Nat.eq_zero_or_pos code with rfl | hpos
  · rw [unpacked_zero]
  · obtain ⟨exponent, significand, _, rfl, _, _, hunpacked⟩ := exists_unpacked_parts hpos h
    rw [hunpacked, even_parts]

private theorem parts_le {exponent significand exponent' significand' : Nat}
    (hparts : exponent = 0 ∨ binadeSize ≤ significand) (hlt' : significand' < 2 * binadeSize)
    (h : exponent * binadeSize + significand ≤ exponent' * binadeSize + significand') :
    exponent < exponent' ∨ exponent = exponent' ∧ significand ≤ significand' := by
  rcases Nat.lt_trichotomy exponent exponent' with he | rfl | he
  · exact .inl he
  · exact .inr ⟨rfl, Nat.le_of_add_le_add_left h⟩
  · have hge : (exponent' + 1) * binadeSize ≤ exponent * binadeSize := Nat.mul_le_mul_right _ he
    rw [Nat.succ_mul] at hge
    omega

private theorem unpacked_le {code' : Nat} (h : code ≤ code') (h' : code' ≤ Binary64.infinity) :
    UnpackedFloat.le (unpacked false code) (unpacked false code') = true := by
  rcases Nat.lt_or_eq_of_le h' with h' | rfl
  · rcases Nat.eq_zero_or_pos code with rfl | hpos
    · rw [unpacked_zero]
      rcases Nat.eq_zero_or_pos code' with rfl | hpos'
      · rw [unpacked_zero]
        rfl
      · obtain ⟨_, _, _, rfl, _, _, hunpacked⟩ := exists_unpacked_parts hpos' h'
        rw [hunpacked]
        rfl
    · obtain ⟨e, s, _, rfl, hparts, _, hunpacked⟩ := exists_unpacked_parts hpos (h.trans_lt h')
      obtain ⟨e', s', _, rfl, _, hlt', hunpacked'⟩ :=
        exists_unpacked_parts (hpos.trans_le h) h'
      rw [hunpacked, hunpacked']
      change ((compare ((e : ℤ) - 1074) (e' - 1074)).then (compare s s')).isLE = true
      rcases parts_le hparts hlt' h with he | ⟨rfl, hs⟩
      · rw [Int.compare_eq_lt.mpr (by omega)]
        rfl
      · rw [Int.compare_eq_eq.mpr rfl]
        exact Nat.isLE_compare.mpr hs
  · rw [unpacked_infinity, unpacked]
    split_ifs <;> rfl

/-- The order of floats without a sign is that of their codes. -/
theorem ofCode_le {code' : Nat} (h : code ≤ code') (h' : code' ≤ Binary64.infinity) :
    ofCode false code ≤ ofCode false code' := by
  have hle := unpacked_le h h'
  rw [← unpack_ofCode (h.trans h'), ← unpack_ofCode h'] at hle
  exact decide_eq_true hle

end Codes

/-- The sign and the code of a float. -/
theorem ofCode_toBits (x : Float) :
    ofCode (signBit ≤ x.toBits.toNat) (x.toBits.toNat % signBit) = x := by
  have hsign : signBit = 9223372036854775808 := rfl
  have hlt := x.toBits.toNat_lt
  have hbits : (if decide (signBit ≤ x.toBits.toNat) = true
      then signBit + x.toBits.toNat % signBit else x.toBits.toNat % signBit) = x.toBits.toNat := by
    simp only [decide_eq_true_eq, hsign]
    split_ifs <;> omega
  rw [ofCode, hbits, UInt64.ofNat_toNat, Float.ofBits_toBits]

/-- The codes of finite floats. -/
theorem code_lt_infinity {x : Float} (h : x.isFinite = true) :
    x.toBits.toNat % signBit < Binary64.infinity := by
  have hsign : signBit = 9223372036854775808 := rfl
  by_contra hge
  rw [infinity_eq_literal, hsign] at hge
  have hexponent : @unpackExponent .binary64 x.toBits.toBitVec = -1#11 := by
    apply BitVec.eq_of_toNat_eq
    rw [toNat_unpackExponent]
    change x.toBits.toNat / 2 ^ 52 % 2 ^ 11 = 2047
    have hlt := x.toBits.toNat_lt
    omega
  have hnot : x.isFinite = false := by
    change (UnpackedFloat.unpack .binary64 x.toBits.toBitVec).isFinite = false
    rw [UnpackedFloat.unpack]
    simp only [if_pos hexponent]
    split_ifs <;> rfl
  rw [hnot] at h
  exact absurd h Bool.false_ne_true

end BlockScript.Number
