import BlockScript.Proofs.Number.Decimals
import BlockScript.Proofs.Source.Spelling

/-!
The numbers in a source. The literal of a number token is the float nearest to the number that its
text denotes, however long the text is.
-/
namespace BlockScript.Source
open Number

/-- What a digit counts. -/
def digitValue (c : Char) : Nat := c.toNat - '0'.toNat

/-- The number of a row of digits. -/
def wholeValue (digits : List Char) : ℚ :=
  digits.foldl (fun before c => 10 * before + digitValue c) 0

/-- The number of a row of digits behind a point. -/
def fractionValue (digits : List Char) : ℚ :=
  digits.foldr (fun c behind => (digitValue c + behind) / 10) 0

/-- The numbers that the spellings of numbers denote. -/
inductive StandsFor : List Char → ℚ → Prop where
  | integer {digits : List Char} :
      digits ≠ [] → (∀ c ∈ digits, IsDigit c) → StandsFor digits (wholeValue digits)
  | fraction {whole part : List Char} :
      whole ≠ [] → (∀ c ∈ whole, IsDigit c) → part ≠ [] → (∀ c ∈ part, IsDigit c) →
      StandsFor (whole ++ '.' :: part) (wholeValue whole + fractionValue part)

private theorem foldl_digits (digits : List Char) (init : Nat) :
    digits.foldl (fun (before : ℚ) c => 10 * before + digitValue c) init =
      Nat.ofDigitChars 10 digits init := by
  induction digits generalizing init with
  | nil => rfl
  | cons c rest ih =>
    rw [List.foldl_cons, Nat.ofDigitChars_cons, ← ih, Nat.cast_add, Nat.cast_mul]
    rfl

private theorem wholeValue_eq (digits : List Char) :
    wholeValue digits = Nat.ofDigitChars 10 digits 0 := by
  rw [wholeValue, ← foldl_digits, Nat.cast_zero]

private theorem fractionValue_eq (digits : List Char) :
    fractionValue digits = Nat.ofDigitChars 10 digits 0 / 10 ^ digits.length := by
  induction digits with
  | nil => simp [fractionValue]
  | cons c rest ih =>
    have hcons : fractionValue (c :: rest) = (digitValue c + fractionValue rest) / 10 := rfl
    have hread : Nat.ofDigitChars 10 (c :: rest) 0 =
        10 ^ rest.length * (10 * 0 + digitValue c) + Nat.ofDigitChars 10 rest 0 := by
      rw [Nat.ofDigitChars_cons]
      exact Nat.ofDigitChars_eq_ofDigitChars_zero
    rw [hcons, ih, hread, List.length_cons]
    push_cast
    field_simp
    ring

section Reading
variable {text : List Char} {q : ℚ}

/-- Reading a spelling gives the number that it denotes. -/
private theorem StandsFor.read (h : StandsFor text q) :
    ∃ d, Numeral.ofChars? text = some d ∧ d.value = q := by
  cases h with
  | integer hne hd =>
    refine ⟨_, ofChars?_integer hne fun c hc => isDigit_iff.mpr (hd c hc), ?_⟩
    rw [Numeral.value, wholeValue_eq, pow_zero, div_one]
  | @fraction whole part hne hd hpne hp =>
    have hread : Nat.ofDigitChars 10 (whole ++ part) 0 =
        10 ^ part.length * Nat.ofDigitChars 10 whole 0 + Nat.ofDigitChars 10 part 0 := by
      rw [Nat.ofDigitChars_append, Nat.ofDigitChars_eq_ofDigitChars_zero]
    refine ⟨_, ofChars?_fraction hne (fun c hc => isDigit_iff.mpr (hd c hc)) hpne
      fun c hc => isDigit_iff.mpr (hp c hc), ?_⟩
    rw [Numeral.value, wholeValue_eq, fractionValue_eq, hread]
    push_cast
    field_simp

theorem StandsFor.unique {q' : ℚ} (h : StandsFor text q) (h' : StandsFor text q') : q = q' := by
  obtain ⟨d, hd, rfl⟩ := h.read
  obtain ⟨d', hd', rfl⟩ := h'.read
  rw [Option.some.inj (hd.symm.trans hd')]

theorem Decimal.exists_standsFor (h : Decimal text) : ∃ q, StandsFor text q := by
  cases h with
  | integer hne hd => exact ⟨_, .integer hne hd⟩
  | fraction hne hd hpne hp => exact ⟨_, .fraction hne hd hpne hp⟩

end Reading

/-- A number token carries the float that its text is read as. -/
private theorem exists_numeral {source : String} {t : Token} (ht : t ∈ (scan source).tokens)
    (hk : t.kind = .number) : ∃ d : Numeral, StandsFor t.lexeme.toList d.value ∧
      t.literal = .number (ofCode false d.toCode) := by
  rw [scan, scanFrom_eq, List.mem_append, List.mem_singleton] at ht
  rcases ht with ht | rfl
  · have hspelled := spelled_of_mem_lexed ht
    rw [hk] at hspelled
    generalize t.lexeme = lexeme at *
    generalize t.literal = literal at *
    cases hspelled with
    | number hdecimal hread =>
      obtain ⟨q, hq⟩ := hdecimal.exists_standsFor
      obtain ⟨d, hd, rfl⟩ := hq.read
      rw [Number.ofChars?, hd, Option.map_some, Option.some_inj] at hread
      subst hread
      rw [String.toList_ofList]
      exact ⟨d, hq, rfl⟩
  · cases hk

/-- Number literals are correctly rounded. The text of every number token denotes one number, and
its literal is the float nearest to that number, with the even significand of two that are equally
near, infinity from the middle behind the greatest finite float on, and zero up to half the least
positive one. So texts that denote the same number have the same literal, and one that denotes a
larger number has no smaller literal. -/
theorem literals_rounded :
    (∀ (source : String), ∀ t ∈ (scan source).tokens, t.kind = .number →
      ∃ q x, StandsFor t.lexeme.toList q ∧ (∀ q', StandsFor t.lexeme.toList q' → q' = q) ∧
        t.literal = .number x ∧ Rounded q x) ∧
    ∀ (source other : String), ∀ t ∈ (scan source).tokens, ∀ t' ∈ (scan other).tokens,
      t.kind = .number → t'.kind = .number →
      ∀ q q', StandsFor t.lexeme.toList q → StandsFor t'.lexeme.toList q' →
        (q = q' → t.literal = t'.literal) ∧
        (q ≤ q' → ∃ x x' : Float, t.literal = .number x ∧ t'.literal = .number x' ∧ x ≤ x') := by
  constructor
  · intro source t ht hk
    obtain ⟨d, hd, hliteral⟩ := exists_numeral ht hk
    exact ⟨d.value, _, hd, fun q' hq' => hq'.unique hd, hliteral, d.rounded⟩
  · intro source other t ht t' ht' hk hk' q q' hq hq'
    obtain ⟨d, hd, hliteral⟩ := exists_numeral ht hk
    obtain ⟨d', hd', hliteral'⟩ := exists_numeral ht' hk'
    obtain rfl := hq.unique hd
    obtain rfl := hq'.unique hd'
    refine ⟨fun he => ?_, fun hle => ⟨_, _, hliteral, hliteral', ?_⟩⟩
    · have hcode : d.toCode = d'.toCode :=
        Nat.le_antisymm (Numeral.toCode_mono he.le) (Numeral.toCode_mono he.ge)
      rw [hliteral, hliteral', hcode]
    · exact ofCode_le (Numeral.toCode_mono hle) d'.toCode_le_infinity

/-- A whole number halfway between two floats, written with and without a point. -/
theorem literals_rounded_halfway :
    let even : Float := ofCode false 4845873199050653696
    let t : Token := ⟨.number, "9007199254740993", .number even, 1⟩
    let t' : Token := ⟨.number, "9007199254740993.0", .number even, 1⟩
    t ∈ (scan "9007199254740993").tokens ∧ t' ∈ (scan "9007199254740993.0").tokens ∧
      (∃ q x, StandsFor t.lexeme.toList q ∧ t.literal = .number x ∧ Rounded q x) ∧
      t.literal = t'.literal := by
  intro even t t'
  have ht : t ∈ (scan "9007199254740993").tokens := by decide +kernel
  have ht' : t' ∈ (scan "9007199254740993.0").tokens := by decide +kernel
  have hdigits : ∀ c ∈ "9007199254740993".toList, IsDigit c :=
    fun c hc => of_decide_eq_true (List.all_eq_true.mp
      (by decide : "9007199254740993".toList.all (fun c => decide (IsDigit c)) = true) c hc)
  have hq : StandsFor t.lexeme.toList (wholeValue "9007199254740993".toList) :=
    .integer (by decide) hdigits
  have htext : t'.lexeme.toList = "9007199254740993".toList ++ '.' :: ['0'] := by decide +kernel
  have hq' : StandsFor t'.lexeme.toList
      (wholeValue "9007199254740993".toList + fractionValue ['0']) := by
    rw [htext]
    exact .fraction (by decide) hdigits (by decide) (List.forall_mem_singleton.mpr (by decide))
  have hzero : fractionValue ['0'] = 0 := by norm_num [fractionValue, digitValue]
  have hsame : wholeValue "9007199254740993".toList =
      wholeValue "9007199254740993".toList + fractionValue ['0'] := by
    rw [hzero, add_zero]
  obtain ⟨q, x, hstands, -, hliteral, hrounded⟩ :=
    literals_rounded.1 "9007199254740993" t ht rfl
  exact ⟨ht, ht', ⟨q, x, hstands, hliteral, hrounded⟩,
    (literals_rounded.2 _ _ t ht t' ht' rfl rfl _ _ hq hq').1 hsame⟩

end BlockScript.Source
