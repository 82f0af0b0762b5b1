import BlockScript.Number
import BlockScript.Proofs.Number.Decimals
import Mathlib.Algebra.Order.Field.Power

/-!
The shortest decimal of a magnitude is rounded to it, and no decimal with fewer digits is. All
decimals that are rounded to a magnitude are in an interval around it. So if any point of a grid is,
then one of the two neighbours is, and a decimal that is longer than another one could be replaced
by a power of ten between the two.
-/
namespace BlockScript.Number
open Binary64

namespace Numeral
variable {d : Numeral} {code count : Nat} {exponent : Int}

private theorem ten_zpow_pos (exponent : Int) : (0 : ℚ) < 10 ^ exponent :=
  zpow_pos (by norm_num) exponent

private theorem value_onGrid (exponent : Int) (count : Nat) :
    (onGrid exponent count).value = count * 10 ^ exponent := by
  cases exponent with
  | ofNat n =>
    rw [Int.ofNat_eq_natCast, onGrid, if_pos (Int.natCast_nonneg n), value, pow_zero, div_one,
      Nat.cast_mul, tenTo_cast, zpow_natCast, Int.toNat_natCast]
  | negSucc n =>
    rw [onGrid, if_neg (Int.not_le.mpr (Int.negSucc_lt_zero n)), value, zpow_negSucc,
      ← div_eq_mul_inv, Int.neg_negSucc]
    rfl

private theorem onGrid_toCode_iff (h : code < infinity) :
    (onGrid exponent count).toCode = code ↔ RoundsTo (count * 10 ^ exponent) code := by
  rw [toCode_eq_iff h, value_onGrid]

/-- The greatest count whose decimal is not above the magnitude. -/
def lowerCount (code : Nat) (exponent : Int) : Nat :=
  (stepsOf exponent code).1 / (stepsOf exponent code).2

private theorem stepsOf_nonneg (n code : Nat) :
    stepsOf n code = (units code, unitsInOne * tenTo n) := by
  rw [stepsOf, if_pos (Int.natCast_nonneg n), Int.toNat_natCast]

private theorem stepsOf_neg (n code : Nat) :
    stepsOf (Int.negSucc n) code = (units code * tenTo (n + 1), unitsInOne) := by
  rw [stepsOf, if_neg (Int.not_le.mpr (Int.negSucc_lt_zero n)), Int.neg_negSucc]
  rfl

private theorem stepsOf_pos (exponent : Int) (code : Nat) : 0 < (stepsOf exponent code).2 := by
  cases exponent with
  | ofNat n =>
    rw [Int.ofNat_eq_natCast, stepsOf_nonneg]
    exact Nat.mul_pos unitsInOne_pos (Nat.pow_pos (by decide))
  | negSucc n =>
    simpa only [stepsOf_neg] using unitsInOne_pos

private theorem stepsOf_eq (exponent : Int) (code : Nat) :
    magnitude code * (stepsOf exponent code).2 = (stepsOf exponent code).1 * 10 ^ exponent := by
  have hne := unitsInOne_ne_zero
  cases exponent with
  | ofNat n =>
    rw [Int.ofNat_eq_natCast, stepsOf_nonneg, magnitude, Nat.cast_mul, tenTo_cast, zpow_natCast]
    field_simp
  | negSucc n =>
    rw [stepsOf_neg, magnitude, Nat.cast_mul, tenTo_cast, zpow_negSucc]
    field_simp

private theorem lowerCount_le (code : Nat) (exponent : Int) :
    lowerCount code exponent * 10 ^ exponent ≤ magnitude code := by
  have hpos : (0 : ℚ) < (stepsOf exponent code).2 := Nat.cast_pos.mpr (stepsOf_pos exponent code)
  have hdiv : lowerCount code exponent * (stepsOf exponent code).2 ≤ (stepsOf exponent code).1 :=
    Nat.div_mul_le_self _ _
  have hcast : (lowerCount code exponent : ℚ) * (stepsOf exponent code).2 ≤
      (stepsOf exponent code).1 := by exact_mod_cast hdiv
  rw [← mul_le_mul_iff_of_pos_right hpos, stepsOf_eq, mul_right_comm]
  exact mul_le_mul_of_nonneg_right hcast (ten_zpow_pos exponent).le

private theorem lt_lowerCount_succ (code : Nat) (exponent : Int) :
    magnitude code < (lowerCount code exponent + 1 : Nat) * 10 ^ exponent := by
  have hpos : (0 : ℚ) < (stepsOf exponent code).2 := Nat.cast_pos.mpr (stepsOf_pos exponent code)
  have hdiv : (stepsOf exponent code).1 < (lowerCount code exponent + 1) * (stepsOf exponent code).2 :=
    (Nat.div_lt_iff_lt_mul (stepsOf_pos exponent code)).mp (Nat.lt_succ_self _)
  have hcast : ((stepsOf exponent code).1 : ℚ) <
      (lowerCount code exponent + 1 : Nat) * (stepsOf exponent code).2 := by exact_mod_cast hdiv
  rw [← mul_lt_mul_iff_of_pos_right hpos, stepsOf_eq, mul_right_comm]
  exact mul_lt_mul_of_pos_right hcast (ten_zpow_pos exponent)

/-- A hit is one of the two neighbours on the grid. -/
private theorem hit?_eq_some (h : hit? code exponent = some d) : d.toCode = code ∧
    (d = onGrid exponent (lowerCount code exponent) ∨
      d = onGrid exponent (lowerCount code exponent + 1)) := by
  simp only [hit?] at h
  split at h
  · rename_i hlower
    split at h
    · rename_i hupper
      obtain rfl := Option.some.inj h
      exact ⟨hupper.1, .inr rfl⟩
    · obtain rfl := Option.some.inj h
      exact ⟨hlower, .inl rfl⟩
  · split at h
    · rename_i hupper
      obtain rfl := Option.some.inj h
      exact ⟨hupper, .inr rfl⟩
    · cases h

private theorem hit?_eq_none (h : hit? code exponent = none) :
    (onGrid exponent (lowerCount code exponent)).toCode ≠ code ∧
      (onGrid exponent (lowerCount code exponent + 1)).toCode ≠ code := by
  simp only [hit?] at h
  split at h
  · split at h <;> cases h
  · rename_i hlower
    split at h
    · cases h
    · rename_i hupper
      exact ⟨hlower, hupper⟩

/-- Without a hit no point of the grid is rounded to the magnitude. -/
private theorem not_roundsTo_of_hit?_eq_none (hcode : code < infinity)
    (h : hit? code exponent = none) (count : Nat) : ¬ RoundsTo (count * 10 ^ exponent) code := by
  intro hround
  obtain ⟨hlower, hupper⟩ := hit?_eq_none h
  have hself := RoundsTo.of_magnitude code
  have hten := (ten_zpow_pos exponent).le
  rcases Nat.lt_or_ge (lowerCount code exponent) count with hlt | hge
  · apply hupper
    rw [onGrid_toCode_iff hcode]
    have hcount : ((lowerCount code exponent + 1 : Nat) : ℚ) ≤ count := Nat.cast_le.mpr hlt
    exact hself.between hround (lt_lowerCount_succ code exponent).le
      (mul_le_mul_of_nonneg_right hcount hten)
  · apply hlower
    rw [onGrid_toCode_iff hcode]
    have hcount : (count : ℚ) ≤ lowerCount code exponent := Nat.cast_le.mpr hge
    exact hround.between hself (mul_le_mul_of_nonneg_right hcount hten)
      (lowerCount_le code exponent)

/-- The powers of ten next to the powers of two, with the exponents of `topExponent`. -/
private theorem two_pow_bounds {bits : Nat} (h : bits < 2098) :
    2 ^ (bits + 1) * 10 ^ 322 < unitsInOne * 10 ^ ((30103 * bits + 99481) / 100000) ∧
      unitsInOne * 2 ^ 54 * 10 ^ ((30103 * bits + 99481) / 100000) ≤ 2 ^ bits * 10 ^ 343 := by
  have htable : (List.range 2098).all (fun bits => decide
      (2 ^ (bits + 1) * 10 ^ 322 < unitsInOne * 10 ^ ((30103 * bits + 99481) / 100000) ∧
        unitsInOne * 2 ^ 54 * 10 ^ ((30103 * bits + 99481) / 100000) ≤
          2 ^ bits * 10 ^ 343)) = true := by
    decide +kernel
  exact of_decide_eq_true (List.all_eq_true.mp htable bits (List.mem_range.mpr h))

private theorem log2_units_lt (hne : units code ≠ 0) (h : code < infinity) :
    (units code).log2 < 2098 := by
  have hlimit : ∀ limit, limit = 2098 → units infinity = 2 ^ limit := by
    rintro _ rfl
    decide +kernel
  generalize 2098 = limit at *
  rw [Nat.log2_lt hne, ← hlimit limit rfl]
  exact units_strictMono h

/-- The grids that are tried start above the magnitude and end far below its last digit. -/
private theorem topExponent_bounds (hne : code ≠ 0) (h : code < infinity) :
    magnitude code < 10 ^ topExponent code ∧
      2 ^ 54 * (10 : ℚ) ^ (topExponent code - 21) ≤ magnitude code := by
  have hpos : units code ≠ 0 := by
    have := units_strictMono (Nat.pos_of_ne_zero hne)
    omega
  obtain ⟨htop, hbottom⟩ := two_pow_bounds (log2_units_lt hpos h)
  have hlow : 2 ^ (units code).log2 ≤ units code := Nat.log2_self_le hpos
  have hhigh : units code < 2 ^ ((units code).log2 + 1) := Nat.lt_log2_self
  have hexponent : topExponent code =
      ((30103 * (units code).log2 + 99481) / 100000 : Nat) - 322 := by
    rw [topExponent]
    omega
  have hunits : (0 : ℚ) < unitsInOne := Nat.cast_pos.mpr unitsInOne_pos
  have hten : (10 : ℚ) ≠ 0 := by norm_num
  have hupper : units code * 10 ^ 322 <
      unitsInOne * 10 ^ ((30103 * (units code).log2 + 99481) / 100000) :=
    Nat.lt_of_le_of_lt (Nat.mul_le_mul_right _ hhigh.le) htop
  have hlower : unitsInOne * 2 ^ 54 * 10 ^ ((30103 * (units code).log2 + 99481) / 100000) ≤
      units code * 10 ^ 343 :=
    Nat.le_trans hbottom (Nat.mul_le_mul_right _ hlow)
  rw [hexponent, magnitude]
  generalize (30103 * (units code).log2 + 99481) / 100000 = steps at *
  generalize unitsInOne = one at *
  constructor
  · rw [zpow_sub₀ hten, div_lt_div_iff₀ hunits (ten_zpow_pos 322), mul_comm ((10 : ℚ) ^ (steps : Int))]
    exact_mod_cast hupper
  · have hsub : (steps : Int) - 322 - 21 = steps - 343 := by ring
    rw [hsub, zpow_sub₀ hten, ← mul_div_assoc, div_le_div_iff₀ (ten_zpow_pos 343) hunits,
      mul_right_comm, mul_comm ((2 : ℚ) ^ 54)]
    exact_mod_cast hlower

/-- The distance to the next magnitude is not small against the magnitude. -/
theorem magnitude_lt_gap (code : Nat) :
    magnitude code < 2 ^ 53 * (magnitude (code + 1) - magnitude code) := by
  obtain ⟨exponent, significand, rfl, hs, hlt⟩ := exists_parts code
  have hcode := units_add hs hlt.le
  have hnext : units (exponent * binadeSize + significand + 1) = (significand + 1) * 2 ^ exponent := by
    rw [Nat.add_assoc]
    exact units_add (by omega) hlt
  have hbinade : ((significand : Nat) : ℚ) < 2 ^ 53 := by exact_mod_cast hlt
  have hpos : (0 : ℚ) < 2 ^ exponent / unitsInOne :=
    div_pos (by positivity) (Nat.cast_pos.mpr unitsInOne_pos)
  have hgap : magnitude (exponent * binadeSize + significand + 1) -
      magnitude (exponent * binadeSize + significand) = 2 ^ exponent / unitsInOne := by
    rw [magnitude, magnitude, hcode, hnext, ← sub_div]
    push_cast
    ring
  rw [hgap, magnitude, hcode, Nat.cast_mul, Nat.cast_pow, Nat.cast_ofNat, mul_div_assoc]
  exact mul_lt_mul_of_pos_right hbinade hpos

/-- A fine grid has a point between a magnitude and the middle to the next one. -/
private theorem exists_hit (hcode : code < infinity)
    (hfine : 2 ^ 54 * (10 : ℚ) ^ exponent ≤ magnitude code) :
    hit? code exponent ≠ none := by
  intro hnone
  apply (hit?_eq_none hnone).2
  rw [onGrid_toCode_iff hcode]
  have hgap := magnitude_lt_gap code
  have hlow := lowerCount_le code exponent
  have hsucc : ((lowerCount code exponent + 1 : Nat) : ℚ) * 10 ^ exponent =
      lowerCount code exponent * 10 ^ exponent + 10 ^ exponent := by
    push_cast
    ring
  exact .of_lt_middle (lt_lowerCount_succ code exponent).le (by linarith)

private theorem findSome?_range {α : Type} {f : Nat → Option α} {n : Nat} {found : α}
    (h : (List.range n).findSome? f = some found) :
    ∃ step < n, f step = some found ∧ ∀ earlier < step, f earlier = none := by
  induction n with
  | zero => cases h
  | succ n ih =>
    rw [List.range_succ, List.findSome?_append] at h
    cases hfirst : (List.range n).findSome? f with
    | some other =>
      rw [hfirst, Option.some_or] at h
      obtain ⟨step, hstep, hf, hearlier⟩ := ih (hfirst.trans h)
      exact ⟨step, Nat.lt_succ_of_lt hstep, hf, hearlier⟩
    | none =>
      rw [hfirst, Option.none_or] at h
      refine ⟨n, Nat.lt_succ_self n, by simpa using h, fun earlier hlt => ?_⟩
      exact List.findSome?_eq_none_iff.mp hfirst earlier (List.mem_range.mpr hlt)

private theorem roundsTo_zero : RoundsTo 0 0 := by
  have h := RoundsTo.of_magnitude 0
  rwa [magnitude_zero] at h

private theorem count_ne_zero (hne : code ≠ 0) (h : RoundsTo (count * 10 ^ exponent) code) :
    count ≠ 0 := by
  rintro rfl
  rw [Nat.cast_zero, zero_mul] at h
  exact hne (h.unique roundsTo_zero)

/-- The decimal that is found, and no coarser grid has one unless it is a power of ten. -/
theorem exists_shortest (hne : code ≠ 0) (hcode : code < infinity) :
    ∃ exponent count, shortest code = onGrid exponent count ∧
      RoundsTo (count * 10 ^ exponent) code ∧
      (count = 1 ∨ ∀ coarser > exponent, ∀ other : Nat,
        ¬ RoundsTo (other * 10 ^ coarser) code) := by
  obtain ⟨htop, hbottom⟩ := topExponent_bounds hne hcode
  rw [shortest, if_neg hne]
  cases hfound : (List.range 22).findSome? fun (step : Nat) => hit? code (topExponent code - step) with
  | none =>
    have hlast := List.findSome?_eq_none_iff.mp hfound 21 (by decide)
    exact absurd hlast (exists_hit hcode hbottom)
  | some d =>
    obtain ⟨step, hstep, hhit, hearlier⟩ := findSome?_range hfound
    obtain ⟨hread, hd⟩ := hit?_eq_some hhit
    obtain ⟨count, rfl, hcount⟩ : ∃ count, d = onGrid (topExponent code - step) count ∧
        count ≤ lowerCount code (topExponent code - step) + 1 := by
      rcases hd with rfl | rfl
      · exact ⟨_, rfl, Nat.le_succ _⟩
      · exact ⟨_, rfl, le_refl _⟩
    rw [onGrid_toCode_iff hcode] at hread
    refine ⟨_, count, rfl, hread, ?_⟩
    rcases Nat.eq_zero_or_pos step with rfl | hpos
    · -- the first grid has no point between zero and the magnitude
      left
      have hnonzero := count_ne_zero hne hread
      have hlow := lowerCount_le code (topExponent code)
      have hzero : lowerCount code (topExponent code) < 1 := by
        rw [← @Nat.cast_lt ℚ, Nat.cast_one,
          ← mul_lt_mul_iff_of_pos_right (ten_zpow_pos (topExponent code)), one_mul]
        exact lt_of_le_of_lt hlow htop
      rw [Nat.cast_zero, sub_zero] at hcount
      omega
    · right
      intro coarser hcoarser other hround
      rcases le_or_gt coarser (topExponent code) with hle | hgt
      · obtain ⟨earlier, hearly⟩ := Int.eq_ofNat_of_zero_le (Int.sub_nonneg_of_le hle)
        obtain rfl : coarser = topExponent code - earlier := by omega
        exact not_roundsTo_of_hit?_eq_none hcode (hearlier earlier (by omega)) other hround
      · obtain ⟨beyond, hbeyond⟩ := Int.eq_ofNat_of_zero_le (Int.sub_nonneg_of_le hgt.le)
        obtain rfl : coarser = beyond + topExponent code := by omega
        rw [zpow_add₀ (by norm_num), zpow_natCast, ← mul_assoc] at hround
        have hnone := hearlier 0 hpos
        rw [Nat.cast_zero, sub_zero] at hnone
        apply not_roundsTo_of_hit?_eq_none hcode hnone (other * 10 ^ beyond)
        exact_mod_cast hround

private theorem value_shortest_zero : (shortest 0).value = 0 := by
  rw [shortest, if_pos rfl, value, Nat.cast_zero, zero_div]

/-- The decimal of a finite magnitude is rounded to it. -/
private theorem roundsTo_shortest (hcode : code < infinity) :
    RoundsTo (shortest code).value code := by
  by_cases hne : code = 0
  · rw [hne, value_shortest_zero]
    exact roundsTo_zero
  · obtain ⟨exponent, count, hshortest, hround, -⟩ := exists_shortest hne hcode
    rw [hshortest, value_onGrid]
    exact hround

theorem toCode_shortest (hcode : code < infinity) : (shortest code).toCode = code :=
  (toCode_eq_iff hcode).mpr (roundsTo_shortest hcode)

/-- A decimal of at most so many digits, where zeros in front and at the end do not count. -/
def DigitsWithin (d : Numeral) (length : Nat) : Prop :=
  ∃ (count : Nat) (exponent : Int), count < 10 ^ length ∧ d.value = count * 10 ^ exponent

/-- No decimal that is read as the magnitude has fewer digits. -/
theorem shortest_fewest (hcode : code < infinity) (hread : d.toCode = code) {length : Nat}
    (hd : d.DigitsWithin length) : (shortest code).DigitsWithin length := by
  obtain ⟨n, e, hn, hvalue⟩ := hd
  by_cases hne : code = 0
  · refine ⟨0, 0, Nat.pow_pos (by decide), ?_⟩
    rw [hne, value_shortest_zero, Nat.cast_zero, zero_mul]
  · obtain ⟨exponent, count, hshortest, hround, hcoarser⟩ := exists_shortest hne hcode
    have h : RoundsTo (n * 10 ^ e) code := by
      rw [← hvalue]
      exact (toCode_eq_iff hcode).mp hread
    refine ⟨count, exponent, ?_, by rw [hshortest, value_onGrid]⟩
    have hpos := Nat.pos_of_ne_zero (count_ne_zero hne h)
    rcases hcoarser with rfl | hcoarser
    · exact Nat.lt_of_le_of_lt hpos hn
    by_contra hge
    have hle : e ≤ exponent := not_lt.mp fun hlt => hcoarser e hlt n h
    have hlength : length ≠ 0 := by
      rintro rfl
      omega
    have hpow : (10 : ℚ) ^ e ≤ 10 ^ exponent := zpow_le_zpow_right₀ (by norm_num) hle
    -- a power of ten would lie between the two decimals
    apply hcoarser (length + exponent) (by omega) 1
    rw [Nat.cast_one, one_mul, zpow_add₀ (by norm_num), zpow_natCast]
    apply h.between hround
    · have hn' : (n : ℚ) ≤ 10 ^ length := by exact_mod_cast hn.le
      exact mul_le_mul hn' hpow (ten_zpow_pos e).le (by positivity)
    · have hcount : (10 : ℚ) ^ length ≤ count := by exact_mod_cast not_lt.mp hge
      exact mul_le_mul_of_nonneg_right hcount (ten_zpow_pos exponent).le

/-- No zeros are left at the end behind the point. -/
theorem shortest_trimmed (hcode : code < infinity) :
    (shortest code).places = 0 ∨ (shortest code).digits % 10 ≠ 0 := by
  by_cases hne : code = 0
  · left
    rw [hne, shortest, if_pos rfl]
  · obtain ⟨exponent, count, hshortest, hround, hcoarser⟩ := exists_shortest hne hcode
    rw [hshortest, onGrid]
    split
    · exact .inl rfl
    · right
      intro hzero
      change count % 10 = 0 at hzero
      rcases hcoarser with rfl | hcoarser
      · exact absurd hzero (by decide)
      obtain ⟨tenth, rfl⟩ := Nat.dvd_of_mod_eq_zero hzero
      apply hcoarser (1 + exponent) (by omega) tenth
      rw [zpow_add₀ (by norm_num), zpow_one, ← mul_assoc, mul_comm (tenth : ℚ)]
      exact_mod_cast hround

end Numeral
end BlockScript.Number
