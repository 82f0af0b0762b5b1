import BlockScript.Proofs.Number.Floats

/-!
Decimals as floats. A decimal is read as the float nearest to it, and the code that it is read as
is a function of the number it denotes that never falls.
-/
namespace BlockScript.Number
open Binary64

/-- A number without a sign and the float that stands for it. From `overflow` on that is infinity,
and below it a float that no other finite one is nearer than; where another one is as near, the
significand is even. -/
structure Rounded (q : ℚ) (x : Float) : Prop where
  infinite : overflow ≤ q → x.toModel.unpack = .infinity .positive
  nearest : q < overflow → ∃ v, rational? x = some v ∧ ∀ y w, rational? y = some w →
    |q - v| ≤ |q - w| ∧ (|q - v| = |q - w| → w ≠ v → Even (significand x))
  zero : q ≤ underflow → x.toModel.unpack = .zero .positive

/-- Finite floats stand for magnitudes with or without a sign. -/
private theorem magnitude_of_rational? {y : Float} {w : ℚ} (h : rational? y = some w) :
    (∃ code, w = magnitude code) ∨ w < 0 := by
  have hfinite : y.isFinite = true := by
    change y.toModel.unpack.isFinite = true
    rw [rational?] at h
    split at h
    · rename_i hu
      rw [hu]
      rfl
    · rename_i hu
      rw [hu]
      rfl
    · cases h
    · cases h
  rw [← ofCode_toBits y, rational?_ofCode (code_lt_infinity hfinite), Option.some_inj] at h
  subst h
  rcases (magnitude_nonneg (y.toBits.toNat % signBit)).eq_or_lt with hzero | hpos
  · exact .inl ⟨0, by rw [← hzero, neg_zero, ite_self, magnitude_zero]⟩
  · split_ifs
    · exact .inr (neg_lt_zero.mpr hpos)
    · exact .inl ⟨_, rfl⟩

private theorem Rounded.of_roundsTo {q : ℚ} {code : Nat} (h : RoundsTo q code) (hq : 0 ≤ q) :
    Rounded q (ofCode false (min infinity code)) := by
  constructor
  · intro hover
    have hge : infinity ≤ code := Nat.not_lt.mp fun hlt => hover.not_gt (h.lt_infinity_iff.mp hlt)
    rw [Nat.min_eq_left hge, unpack_ofCode (le_refl _), unpacked_infinity]
    rfl
  · intro hlt
    have hcode := h.lt_infinity_iff.mpr hlt
    rw [Nat.min_eq_right hcode.le, rational?_ofCode hcode, even_significand_ofCode hcode]
    refine ⟨magnitude code, rfl, fun y w hy => ?_⟩
    rcases magnitude_of_rational? hy with ⟨other, rfl⟩ | hneg
    · obtain ⟨hle, htie⟩ := h.closest other
      refine ⟨hle, fun he hne => htie he ?_⟩
      rintro rfl
      exact hne rfl
    · -- zero is nearer than a negative number
      have hzero := (h.closest 0).1
      rw [magnitude_zero, sub_zero, abs_of_nonneg hq] at hzero
      have hfar : |q - w| = q - w := abs_of_nonneg (by linarith)
      exact ⟨by linarith, fun he => absurd he (by linarith)⟩
  · intro hunder
    obtain rfl : code = 0 := h.eq_zero_iff.mpr hunder
    rw [Nat.min_eq_right (Nat.zero_le _), unpack_ofCode (Nat.zero_le _), unpacked_zero]
    rfl

namespace Numeral
variable {d d' : Numeral} {code : Nat}

/-- The number that a numeral denotes. -/
def value (d : Numeral) : ℚ := d.digits / 10 ^ d.places

theorem value_nonneg (d : Numeral) : 0 ≤ d.value := by
  rw [value]
  positivity

theorem tenTo_cast (n : Nat) : ((tenTo n : Nat) : ℚ) = 10 ^ n := Nat.cast_pow 10 n

theorem exists_roundsTo (d : Numeral) :
    ∃ code, RoundsTo d.value code ∧ d.toCode = min infinity code := by
  have hpos : 0 < tenTo d.places := Nat.pow_pos (by decide)
  refine ⟨_, ?_, nearest_eq d.digits (tenTo d.places)⟩
  rw [value, ← tenTo_cast]
  exact unbounded_spec d.digits hpos

theorem toCode_mono (h : d.value ≤ d'.value) : d.toCode ≤ d'.toCode := by
  obtain ⟨code, hround, hcode⟩ := d.exists_roundsTo
  obtain ⟨code', hround', hcode'⟩ := d'.exists_roundsTo
  rw [hcode, hcode']
  exact min_le_min_left infinity (hround.mono hround' h)

theorem toCode_le_infinity (d : Numeral) : d.toCode ≤ infinity := by
  obtain ⟨code, -, hcode⟩ := d.exists_roundsTo
  rw [hcode]
  exact Nat.min_le_left infinity code

theorem toCode_eq_iff (h : code < infinity) : d.toCode = code ↔ RoundsTo d.value code := by
  obtain ⟨rounded, hround, hcode⟩ := d.exists_roundsTo
  rw [hcode]
  constructor
  · intro he
    obtain rfl : rounded = code := by omega
    exact hround
  · intro hother
    rw [hround.unique hother]
    exact Nat.min_eq_right h.le

theorem rounded (d : Numeral) : Rounded d.value (ofCode false d.toCode) := by
  obtain ⟨code, hround, hcode⟩ := d.exists_roundsTo
  rw [hcode]
  exact .of_roundsTo hround d.value_nonneg

end Numeral
end BlockScript.Number
