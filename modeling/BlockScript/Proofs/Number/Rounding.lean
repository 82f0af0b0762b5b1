import BlockScript.Proofs.Number.Magnitudes
import Mathlib.Tactic.Linarith

/-!
Rounding to the nearest magnitude. A number is rounded to a code if it is not beyond the middle to
either neighbouring magnitude, and in a middle only if the code is even. That fixes the code, and
larger numbers have no smaller codes.
-/
namespace BlockScript.Number.Binary64

/-- A number that lies between the middles around a code's magnitude. -/
structure RoundsTo (q : ℚ) (code : Nat) : Prop where
  lower (below : Nat) : code = below + 1 → magnitude below + magnitude code ≤ 2 * q ∧
    (magnitude below + magnitude code = 2 * q → Even code)
  upper : 2 * q ≤ magnitude code + magnitude (code + 1) ∧
    (2 * q = magnitude code + magnitude (code + 1) → Even code)

namespace RoundsTo
variable {q q' : ℚ} {code code' : Nat}

theorem mono (h : RoundsTo q code) (h' : RoundsTo q' code') (hq : q ≤ q') : code ≤ code' := by
  by_contra hlt
  obtain ⟨below, rfl⟩ := Nat.exists_eq_add_of_lt (Nat.not_le.mp hlt)
  have hbelow : magnitude code' ≤ magnitude (code' + below) :=
    magnitude_strictMono.monotone (Nat.le_add_right code' below)
  have hcode : magnitude (code' + 1) ≤ magnitude (code' + below + 1) :=
    magnitude_strictMono.monotone (by omega)
  obtain ⟨hlower, heven⟩ := h.lower (code' + below) rfl
  obtain ⟨hupper, heven'⟩ := h'.upper
  have hsame : magnitude code' = magnitude (code' + below) := by linarith
  obtain rfl : below = 0 := by
    have := magnitude_strictMono.injective hsame
    omega
  -- both numbers lie in the middle between two neighbours, of which only one is even
  rw [Nat.add_zero] at hlower heven
  have hodd := heven (by linarith)
  exact (Nat.even_add_one.mp hodd) (heven' (by linarith))

theorem unique (h : RoundsTo q code) (h' : RoundsTo q code') : code = code' :=
  Nat.le_antisymm (h.mono h' (le_refl q)) (h'.mono h (le_refl q))

/-- A number is rounded down as long as it is before the middle to the next magnitude. -/
theorem of_lt_middle (hlow : magnitude code ≤ q)
    (hhigh : 2 * q < magnitude code + magnitude (code + 1)) : RoundsTo q code := by
  constructor
  · rintro below rfl
    have hlt := magnitude_lt_succ below
    exact ⟨by linarith, fun he => absurd he (by linarith)⟩
  · exact ⟨hhigh.le, fun he => absurd he hhigh.ne⟩

/-- A magnitude is rounded to its own code. -/
theorem of_magnitude (code : Nat) : RoundsTo (magnitude code) code := by
  have hlt := magnitude_lt_succ code
  exact of_lt_middle (le_refl _) (by linarith)

/-- The numbers that are rounded to a code are an interval. -/
theorem between {q'' : ℚ} (h : RoundsTo q code) (h'' : RoundsTo q'' code) (hlow : q ≤ q')
    (hhigh : q' ≤ q'') : RoundsTo q' code := by
  constructor
  · intro below hbelow
    obtain ⟨hle, heven⟩ := h.lower below hbelow
    exact ⟨by linarith, fun he => heven (by linarith)⟩
  · obtain ⟨hle, heven⟩ := h''.upper
    exact ⟨by linarith, fun he => heven (by linarith)⟩

/-- No magnitude is nearer, and one that is as near shows the code to be even. -/
theorem closest (h : RoundsTo q code) (other : Nat) :
    |q - magnitude code| ≤ |q - magnitude other| ∧
      (|q - magnitude code| = |q - magnitude other| → other ≠ code → Even code) := by
  rcases Nat.lt_trichotomy other code with hlt | rfl | hlt
  · obtain ⟨below, rfl⟩ := Nat.exists_eq_add_of_lt hlt
    obtain ⟨hlower, heven⟩ := h.lower (other + below) rfl
    have hother : magnitude other ≤ magnitude (other + below) :=
      magnitude_strictMono.monotone (Nat.le_add_right other below)
    have hbelow := magnitude_lt_succ (other + below)
    have habs : |q - magnitude other| = q - magnitude other := abs_of_nonneg (by linarith)
    rw [habs]
    rcases abs_cases (q - magnitude (other + below + 1)) with ⟨he, -⟩ | ⟨he, -⟩ <;> rw [he]
    · exact ⟨by linarith, fun htie => absurd htie (by linarith)⟩
    · exact ⟨by linarith, fun htie _ => heven (by linarith)⟩
  · exact ⟨le_refl _, fun _ hne => absurd rfl hne⟩
  · obtain ⟨hupper, heven⟩ := h.upper
    have hother : magnitude (code + 1) ≤ magnitude other :=
      magnitude_strictMono.monotone hlt
    have hnext := magnitude_lt_succ code
    have habs : |q - magnitude other| = magnitude other - q := by
      rw [abs_sub_comm]
      exact abs_of_nonneg (by linarith)
    rw [habs]
    rcases abs_cases (q - magnitude code) with ⟨he, -⟩ | ⟨he, -⟩ <;> rw [he]
    · exact ⟨by linarith, fun htie _ => heven (by linarith)⟩
    · exact ⟨by linarith, fun htie => absurd htie (by linarith)⟩

end RoundsTo

/-- The quotient is off by at most a half, and where it is off by a half it is even. -/
theorem divToEven_spec {denominator : Nat} (numerator : Nat) (h : 0 < denominator) :
    let quotient := divToEven numerator denominator
    (2 * quotient * denominator ≤ 2 * numerator + denominator ∧
        (2 * quotient * denominator = 2 * numerator + denominator → Even quotient)) ∧
      (2 * numerator ≤ (2 * quotient + 1) * denominator ∧
        (2 * numerator = (2 * quotient + 1) * denominator → Even quotient)) := by
  have hdiv := Nat.div_add_mod' numerator denominator
  have hmod := Nat.mod_lt numerator h
  simp only [divToEven, Nat.even_iff]
  generalize numerator / denominator = whole at *
  generalize numerator % denominator = part at *
  subst hdiv
  split_ifs with hup <;> refine ⟨⟨?_, ?_⟩, ?_, ?_⟩ <;> ring_nf <;> omega

private theorem divToEven_cases (numerator denominator : Nat) :
    divToEven numerator denominator = numerator / denominator ∨
      divToEven numerator denominator = numerator / denominator + 1 := by
  simp only [divToEven]
  split_ifs
  · exact .inr rfl
  · exact .inl rfl

/-- The whole part of a quotient of two numbers, scaled down to a significand. -/
private theorem significand_bounds (whole : Nat) :
    whole / 2 ^ (whole.log2 - 52) < 2 * binadeSize ∧
      (whole.log2 - 52 = 0 ∨ binadeSize ≤ whole / 2 ^ (whole.log2 - 52)) := by
  have hsize : binadeSize = 2 ^ 52 := rfl
  have hpow : 0 < 2 ^ (whole.log2 - 52) := Nat.two_pow_pos _
  rw [hsize]
  constructor
  · rw [Nat.div_lt_iff_lt_mul hpow, ← Nat.pow_succ', ← Nat.pow_add]
    exact Nat.lt_of_lt_of_le Nat.lt_log2_self (Nat.pow_le_pow_right (by decide) (by omega))
  · rcases Nat.eq_zero_or_pos (whole.log2 - 52) with hzero | hpos
    · exact .inl hzero
    · have hne : whole ≠ 0 := by
        rintro rfl
        simp at hpos
      right
      rw [Nat.le_div_iff_mul_le hpow, ← Nat.pow_add, Nat.add_sub_cancel' (by omega)]
      exact Nat.log2_self_le hne

section Fractions
variable {numerator denominator : Nat} (hd : 0 < denominator) (units : Nat)
include hd

private theorem div_unitsInOne_le_iff :
    (units : ℚ) / unitsInOne ≤ 2 * (numerator / denominator) ↔
      units * denominator ≤ 2 * (numerator * unitsInOne) := by
  have hd' : (0 : ℚ) < denominator := Nat.cast_pos.mpr hd
  have hu : (0 : ℚ) < unitsInOne := Nat.cast_pos.mpr unitsInOne_pos
  rw [← mul_div_assoc, div_le_div_iff₀ hu hd', mul_assoc]
  exact_mod_cast Iff.rfl

private theorem le_div_unitsInOne_iff :
    2 * ((numerator : ℚ) / denominator) ≤ units / unitsInOne ↔
      2 * (numerator * unitsInOne) ≤ units * denominator := by
  have hd' : (0 : ℚ) < denominator := Nat.cast_pos.mpr hd
  have hu : (0 : ℚ) < unitsInOne := Nat.cast_pos.mpr unitsInOne_pos
  rw [← mul_div_assoc, div_le_div_iff₀ hd' hu, mul_assoc]
  exact_mod_cast Iff.rfl

end Fractions

private theorem magnitude_add (code other : Nat) :
    magnitude code + magnitude other = ((units code + units other : Nat) : ℚ) / unitsInOne := by
  rw [magnitude, magnitude, ← add_div, Nat.cast_add]

/-- The bounds of rounding, in units and without fractions. -/
private theorem roundsTo_div {numerator denominator code : Nat} (hd : 0 < denominator)
    (hlower : ∀ below, code = below + 1 →
      (units below + units code) * denominator ≤ 2 * (numerator * unitsInOne) ∧
        ((units below + units code) * denominator = 2 * (numerator * unitsInOne) → Even code))
    (hupper : 2 * (numerator * unitsInOne) ≤ (units code + units (code + 1)) * denominator ∧
      (2 * (numerator * unitsInOne) = (units code + units (code + 1)) * denominator →
        Even code)) :
    RoundsTo (numerator / denominator) code := by
  constructor
  · intro below hbelow
    rw [magnitude_add]
    obtain ⟨hle, heven⟩ := hlower below hbelow
    refine ⟨(div_unitsInOne_le_iff hd _).mpr hle, fun he => heven (Nat.le_antisymm hle ?_)⟩
    exact (le_div_unitsInOne_iff hd _).mp he.ge
  · rw [magnitude_add]
    refine ⟨(le_div_unitsInOne_iff hd _).mpr hupper.1, fun he => hupper.2 ?_⟩
    exact Nat.le_antisymm hupper.1 ((div_unitsInOne_le_iff hd _).mp he.ge)

/-- The nearest code, if there were no bound on exponents. -/
def unbounded (numerator denominator : Nat) : Nat :=
  let scaled := numerator * unitsInOne
  let exponent := (scaled / denominator).log2 - 52
  exponent * binadeSize + divToEven scaled (denominator * Nat.pow 2 exponent)

theorem nearest_eq (numerator denominator : Nat) :
    nearest numerator denominator = min infinity (unbounded numerator denominator) := rfl

theorem even_parts (exponent significand : Nat) :
    Even (exponent * binadeSize + significand) ↔ Even significand := by
  have hsize : Even binadeSize := by decide
  rw [Nat.even_add, iff_true_left (hsize.mul_left exponent)]

/-- A significand that is nearest at an exponent is nearest of all, if the number is within the
binades of the exponent. -/
private theorem roundsTo_parts {numerator denominator exponent significand : Nat}
    (hd : 0 < denominator)
    (hs : exponent = 0 ∨ binadeSize ≤ significand) (hcarry : significand ≤ 2 * binadeSize)
    (hbottom : exponent = 0 ∨ binadeSize * (denominator * 2 ^ exponent) ≤ numerator * unitsInOne)
    (htop : numerator * unitsInOne < 2 * binadeSize * (denominator * 2 ^ exponent))
    (hlower : 2 * significand * (denominator * 2 ^ exponent) ≤
        2 * (numerator * unitsInOne) + denominator * 2 ^ exponent ∧
      (2 * significand * (denominator * 2 ^ exponent) =
        2 * (numerator * unitsInOne) + denominator * 2 ^ exponent → Even significand))
    (hupper : 2 * (numerator * unitsInOne) ≤
        (2 * significand + 1) * (denominator * 2 ^ exponent) ∧
      (2 * (numerator * unitsInOne) = (2 * significand + 1) * (denominator * 2 ^ exponent) →
        Even significand)) :
    RoundsTo (numerator / denominator) (exponent * binadeSize + significand) := by
  have hcode := units_add hs hcarry
  apply roundsTo_div hd
  · intro below hbelow
    have hlt : units below < units (exponent * binadeSize + significand) :=
      units_strictMono (by omega)
    rw [even_parts, hcode] at *
    by_cases hin : exponent = 0 ∨ binadeSize < significand
    · obtain ⟨previous, rfl⟩ : ∃ previous, significand = previous + 1 := by
        rcases hin with rfl | hin
        · exact ⟨below, by omega⟩
        · exact Nat.exists_eq_succ_of_ne_zero (by omega)
      obtain rfl : below = exponent * binadeSize + previous := by omega
      have hprevious : units (exponent * binadeSize + previous) = previous * 2 ^ exponent :=
        units_add (by omega) (by omega)
      have hsum : (previous * 2 ^ exponent + (previous + 1) * 2 ^ exponent) * denominator +
          denominator * 2 ^ exponent = 2 * (previous + 1) * (denominator * 2 ^ exponent) := by ring
      rw [hprevious]
      exact ⟨by omega, fun he => hlower.2 (by omega)⟩
    · -- the neighbour below has the next smaller exponent, and the number is not below the code
      obtain ⟨hne, hle⟩ := not_or.mp hin
      obtain rfl : significand = binadeSize := by omega
      have hsum : (units below + binadeSize * 2 ^ exponent) * denominator <
          2 * (numerator * unitsInOne) := by
        have := hbottom.resolve_left hne
        nlinarith
      exact ⟨hsum.le, fun he => absurd he hsum.ne⟩
  · have hlt := units_strictMono (Nat.lt_succ_self (exponent * binadeSize + significand))
    rw [even_parts, hcode] at *
    by_cases hin : significand < 2 * binadeSize
    · have hnext : units (exponent * binadeSize + significand + 1) =
          (significand + 1) * 2 ^ exponent := by
        rw [Nat.add_assoc]
        exact units_add (by omega) hin
      have hsum : (significand * 2 ^ exponent + (significand + 1) * 2 ^ exponent) * denominator =
          (2 * significand + 1) * (denominator * 2 ^ exponent) := by ring
      rw [hnext, hsum]
      exact hupper
    · obtain rfl : significand = 2 * binadeSize := by omega
      have hsum : 2 * (numerator * unitsInOne) <
          (2 * binadeSize * 2 ^ exponent +
            units (exponent * binadeSize + 2 * binadeSize + 1)) * denominator := by
        rw [Nat.succ_eq_add_one] at hlt
        nlinarith
      exact ⟨hsum.le, fun he => absurd he hsum.ne⟩

theorem unbounded_spec {denominator : Nat} (numerator : Nat) (hd : 0 < denominator) :
    RoundsTo (numerator / denominator) (unbounded numerator denominator) := by
  obtain ⟨hlt, hge⟩ := significand_bounds (numerator * unitsInOne / denominator)
  simp only [unbounded]
  generalize (numerator * unitsInOne / denominator).log2 - 52 = exponent at *
  rw [Nat.div_div_eq_div_mul] at hlt hge
  have hD : 0 < denominator * 2 ^ exponent := Nat.mul_pos hd (Nat.two_pow_pos exponent)
  obtain ⟨hlower, hupper⟩ := divToEven_spec (numerator * unitsInOne) hD
  have hcases := divToEven_cases (numerator * unitsInOne) (denominator * 2 ^ exponent)
  refine roundsTo_parts hd ?_ ?_ ?_ ?_ hlower hupper
  · change exponent = 0 ∨ binadeSize ≤ divToEven _ (denominator * 2 ^ exponent)
    omega
  · change divToEven _ (denominator * 2 ^ exponent) ≤ _
    omega
  · exact hge.imp_right (Nat.le_div_iff_mul_le hD).mp
  · exact (Nat.div_lt_iff_lt_mul hD).mp hlt

/-- The least number that no finite magnitude is nearest to. -/
def overflow : ℚ := 2 ^ 1024 - 2 ^ 970

/-- The greatest number that is rounded to zero. -/
def underflow : ℚ := 1 / 2 ^ 1075

section Limits
variable {q : ℚ} {code : Nat}

theorem unitsInOne_ne_zero : (unitsInOne : ℚ) ≠ 0 := Nat.cast_ne_zero.mpr unitsInOne_pos.ne'

/-- The middle between the greatest finite magnitude and the one that would follow it. -/
private theorem magnitude_add_infinity :
    magnitude (infinity - 1) + magnitude infinity = 2 * overflow := by
  have hunits : units (infinity - 1) + units infinity + 2 * 2 ^ 970 * unitsInOne =
      2 * 2 ^ 1024 * unitsInOne := by decide +kernel
  have hcast := congrArg (Nat.cast (R := ℚ)) hunits
  rw [Nat.cast_add, Nat.cast_mul, Nat.cast_mul, Nat.cast_mul, Nat.cast_mul, Nat.cast_pow,
    Nat.cast_pow, Nat.cast_ofNat] at hcast
  rw [magnitude_add, div_eq_iff unitsInOne_ne_zero, overflow, mul_sub, sub_mul,
    eq_sub_iff_add_eq, hcast]

/-- The middle between zero and the least positive magnitude. -/
private theorem magnitude_one : magnitude 1 = 2 * underflow := by
  have hunits : units 1 * 2 ^ 1075 = 2 * unitsInOne := by decide +kernel
  have hpow : (2 : ℚ) ^ 1075 ≠ 0 := pow_ne_zero 1075 two_ne_zero
  have hcast := congrArg (Nat.cast (R := ℚ)) hunits
  rw [Nat.cast_mul, Nat.cast_mul, Nat.cast_pow, Nat.cast_ofNat] at hcast
  rw [magnitude, underflow, mul_one_div, div_eq_div_iff unitsInOne_ne_zero hpow, hcast]

theorem RoundsTo.lt_infinity_iff (h : RoundsTo q code) : code < infinity ↔ q < overflow := by
  have hmiddle := magnitude_add_infinity
  have hpos : 0 < infinity := by decide
  constructor
  · intro hlt
    obtain ⟨hupper, heven⟩ := h.upper
    have hcode : magnitude code ≤ magnitude (infinity - 1) :=
      magnitude_strictMono.monotone (by omega)
    have hnext : magnitude (code + 1) ≤ magnitude infinity :=
      magnitude_strictMono.monotone (by omega)
    apply lt_of_le_of_ne (by linarith)
    intro he
    have hlast : magnitude code = magnitude (infinity - 1) := by linarith
    have hodd : ¬ Even (infinity - 1) := by decide
    exact hodd (magnitude_strictMono.injective hlast ▸ heven (by linarith))
  · contrapose!
    intro hle
    obtain ⟨below, rfl⟩ := Nat.exists_eq_add_of_lt (Nat.lt_of_lt_of_le hpos hle)
    have hbelow : magnitude (infinity - 1) ≤ magnitude (0 + below) :=
      magnitude_strictMono.monotone (by omega)
    have hcode : magnitude infinity ≤ magnitude (0 + below + 1) :=
      magnitude_strictMono.monotone hle
    linarith [(h.lower (0 + below) rfl).1]

theorem RoundsTo.eq_zero_iff (h : RoundsTo q code) : code = 0 ↔ q ≤ underflow := by
  have hone := magnitude_one
  have hzero := magnitude_zero
  constructor
  · rintro rfl
    linarith [h.upper.1]
  · intro hq
    by_contra hne
    obtain ⟨below, rfl⟩ := Nat.exists_eq_add_of_lt (Nat.pos_of_ne_zero hne)
    obtain ⟨hlower, heven⟩ := h.lower (0 + below) rfl
    have hbelow := magnitude_nonneg (0 + below)
    have hcode : magnitude 1 ≤ magnitude (0 + below + 1) :=
      magnitude_strictMono.monotone (by omega)
    have hfirst : magnitude (0 + below) = magnitude 0 := by linarith
    rw [magnitude_strictMono.injective hfirst] at hlower heven
    exact absurd (heven (by linarith)) (by decide)

end Limits

end BlockScript.Number.Binary64
