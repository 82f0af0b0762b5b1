import BlockScript.Number
import Mathlib.Algebra.Order.Field.Rat
import Mathlib.Order.Monotone.Basic
import Mathlib.Tactic.Ring

/-!
The magnitudes behind the codes. A code is an exponent and a significand in one number, and going
up by one code is going up to the next magnitude, also from one exponent to the next.
-/
namespace BlockScript.Number.Binary64

/-- The number that a finite magnitude's code stands for. Codes from `infinity` on go on in the same
way, as if there were more exponents. -/
def magnitude (code : Nat) : ℚ := units code / unitsInOne

theorem unitsInOne_eq : unitsInOne = 2 ^ 1074 := by decide +kernel

theorem unitsInOne_pos : 0 < unitsInOne := by decide +kernel

theorem binadeSize_pos : 0 < binadeSize := by decide

section Parts
variable {exponent significand fraction : Nat}

private theorem units_of_lt (h : significand < binadeSize) : units significand = significand := by
  rw [units, if_pos h]

private theorem units_normal (h : fraction < binadeSize) :
    units ((exponent + 1) * binadeSize + fraction) = (binadeSize + fraction) * 2 ^ exponent := by
  have hnot : ¬ (exponent + 1) * binadeSize + fraction < binadeSize := by
    rw [Nat.succ_mul]
    omega
  rw [units, if_neg hnot, Nat.mul_add_mod_of_lt h, Nat.mul_comm (exponent + 1),
    Nat.mul_add_div binadeSize_pos, Nat.div_eq_of_lt h]
  rfl

/-- A significand is added to an exponent. That of a full binade carries. -/
theorem units_add (h : exponent = 0 ∨ binadeSize ≤ significand)
    (hs : significand ≤ 2 * binadeSize) :
    units (exponent * binadeSize + significand) = significand * 2 ^ exponent := by
  rcases Nat.lt_or_ge significand binadeSize with hlow | hhigh
  · obtain rfl : exponent = 0 := h.resolve_right (Nat.not_le.mpr hlow)
    rw [Nat.zero_mul, Nat.zero_add, units_of_lt hlow, Nat.pow_zero, Nat.mul_one]
  · obtain ⟨fraction, rfl⟩ := Nat.exists_eq_add_of_le hhigh
    rcases Nat.lt_or_eq_of_le hs with hs | hs
    · rw [← Nat.add_assoc, ← Nat.succ_mul, units_normal (by omega)]
    · obtain rfl : fraction = binadeSize := by omega
      have hcarry : exponent * binadeSize + (binadeSize + binadeSize) =
          (exponent + 1 + 1) * binadeSize + 0 := by ring
      rw [hcarry, units_normal binadeSize_pos]
      ring

theorem exists_parts (code : Nat) : ∃ exponent significand,
    code = exponent * binadeSize + significand ∧ (exponent = 0 ∨ binadeSize ≤ significand) ∧
      significand < 2 * binadeSize := by
  rcases Nat.lt_or_ge code binadeSize with hlow | hhigh
  · exact ⟨0, code, by omega, .inl rfl, by omega⟩
  · have hmod := Nat.mod_lt code binadeSize_pos
    have hdiv : 0 < code / binadeSize := Nat.div_pos hhigh binadeSize_pos
    have hcode := Nat.div_add_mod' code binadeSize
    obtain ⟨exponent, he⟩ := Nat.exists_eq_add_of_le' hdiv
    rw [he, Nat.succ_mul] at hcode
    exact ⟨exponent, binadeSize + code % binadeSize, by omega, .inr (by omega), by omega⟩

end Parts

theorem units_strictMono : StrictMono units := by
  apply strictMono_nat_of_lt_succ
  intro code
  obtain ⟨exponent, significand, rfl, h, hs⟩ := exists_parts code
  rw [Nat.add_assoc, units_add h (Nat.le_of_lt hs), units_add (by omega) hs]
  exact Nat.mul_lt_mul_of_pos_right (Nat.lt_succ_self significand) (Nat.two_pow_pos exponent)

theorem magnitude_strictMono : StrictMono magnitude := by
  intro code other h
  have hu : (units code : ℚ) < units other := Nat.cast_lt.mpr (units_strictMono h)
  exact (div_lt_div_iff_of_pos_right (Nat.cast_pos.mpr unitsInOne_pos)).mpr hu

theorem magnitude_lt_succ (code : Nat) : magnitude code < magnitude (code + 1) :=
  magnitude_strictMono (Nat.lt_succ_self code)

theorem magnitude_zero : magnitude 0 = 0 := by
  rw [magnitude, units_of_lt binadeSize_pos, Nat.cast_zero, zero_div]

theorem magnitude_nonneg (code : Nat) : 0 ≤ magnitude code := by
  rw [← magnitude_zero]
  exact magnitude_strictMono.monotone (Nat.zero_le code)

end BlockScript.Number.Binary64
