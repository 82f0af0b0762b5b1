import BlockScript.Proofs.Number.Shortest
import BlockScript.Proofs.Source.Lexemes

/-!
Numbers as texts. The text of a numeral is a number of the language and is read as the same
numeral, and the text of a finite float without a sign is read as the same float.
-/
namespace BlockScript.Number.Numeral

section Digits
variable {n places : Nat}

private theorem isDigit_toDigits : ∀ c ∈ Nat.toDigits 10 n, c.isDigit = true :=
  fun _ hc => Nat.isDigit_of_mem_toDigits (by decide) (by decide) hc

/-- The digits of a number, with zeros in front of them. -/
private theorem leftpad_toDigits : (Nat.toDigits 10 n).leftpad places '0' =
    List.replicate (places - (Nat.toDigits 10 n).length) '0' ++ Nat.toDigits 10 n := rfl

private theorem isDigit_leftpad :
    ∀ c ∈ (Nat.toDigits 10 n).leftpad places '0', c.isDigit = true := by
  rw [leftpad_toDigits, List.forall_mem_append]
  refine ⟨fun c hc => ?_, isDigit_toDigits⟩
  rw [List.eq_of_mem_replicate hc]
  decide

private theorem length_leftpad_toDigits (hp : places ≠ 0) (hn : n < tenTo places) :
    ((Nat.toDigits 10 n).leftpad places '0').length = places := by
  rw [List.length_leftpad]
  exact Nat.max_eq_left (Nat.toDigits_length 10 n places (Nat.pos_of_ne_zero hp) hn)

private theorem leftpad_ne_nil (hp : places ≠ 0) : (Nat.toDigits 10 n).leftpad places '0' ≠ [] := by
  apply List.ne_nil_of_length_pos
  rw [List.length_leftpad]
  exact Nat.lt_of_lt_of_le (Nat.pos_of_ne_zero hp) (Nat.le_max_left _ _)

private theorem ofDigitChars_leftpad :
    Nat.ofDigitChars 10 ((Nat.toDigits 10 n).leftpad places '0') 0 = n := by
  rw [leftpad_toDigits, Nat.ofDigitChars_append, Nat.ofDigitChars_replicate_zero,
    Nat.mul_zero, Nat.ofDigitChars_ten_toDigits]

end Digits

variable (d : Numeral)

theorem lexeme_toChars : Source.Lexeme .number d.toChars := by
  unfold toChars
  split
  · exact .integer Nat.toDigits_ne_nil isDigit_toDigits
  · rename_i hp
    exact .fraction Nat.toDigits_ne_nil isDigit_toDigits (leftpad_ne_nil hp) isDigit_leftpad

/-- Reading undoes writing. -/
theorem ofChars?_toChars : ofChars? d.toChars = some d := by
  obtain ⟨digits, places⟩ := d
  unfold toChars
  split
  · rename_i hp
    obtain rfl : places = 0 := hp
    rw [Source.ofChars?_integer Nat.toDigits_ne_nil isDigit_toDigits, Nat.ofDigitChars_ten_toDigits]
  · rename_i hp
    have hlt : digits % tenTo places < tenTo places := Nat.mod_lt _ (Nat.pow_pos (by decide))
    have hlength := length_leftpad_toDigits hp hlt
    have hread : Nat.ofDigitChars 10 (Nat.toDigits 10 (digits / tenTo places) ++
        (Nat.toDigits 10 (digits % tenTo places)).leftpad places '0') 0 = digits := by
      have hfirst : Nat.ofDigitChars 10 ((Nat.toDigits 10 (digits % tenTo places)).leftpad places '0')
          (digits / tenTo places) = tenTo places * (digits / tenTo places) + digits % tenTo places := by
        rw [Nat.ofDigitChars_eq_ofDigitChars_zero, ofDigitChars_leftpad, hlength]
        rfl
      rw [Nat.ofDigitChars_append, Nat.ofDigitChars_ten_toDigits, hfirst, Nat.div_add_mod]
    rw [Source.ofChars?_fraction Nat.toDigits_ne_nil isDigit_toDigits (leftpad_ne_nil hp)
      isDigit_leftpad, hread, hlength]

end BlockScript.Number.Numeral

namespace BlockScript.Number
open Binary64
variable {negative : Bool} {code : Nat}

theorem ofChars?_shortest (h : code < infinity) :
    ofChars? (Numeral.shortest code).toChars = some (ofCode false code) := by
  rw [ofChars?, Numeral.ofChars?_toChars, Option.map_some, Numeral.toCode_shortest h]

/-- The bits of a float are its sign and its code. -/
theorem toNat_toBits_ofCode (h : code ≤ infinity) :
    (ofCode negative code).toBits.toNat = if negative then signBit + code else code := by
  rw [← toNat_bits h, ← toBits_ofCode h]
  rfl

theorem signBit_le_iff (h : code ≤ infinity) :
    signBit ≤ (ofCode negative code).toBits.toNat ↔ negative = true := by
  have hlt : code < signBit := Nat.lt_of_le_of_lt h (by decide)
  rw [toNat_toBits_ofCode h]
  cases negative <;> simp_all

theorem ofCode_inj {code' : Nat} (h : code ≤ infinity) (h' : code' ≤ infinity)
    (he : ofCode false code = ofCode false code') : code = code' := by
  have hbits := congrArg (fun x : Float => x.toBits.toNat) he
  simpa only [toNat_toBits_ofCode h, toNat_toBits_ofCode h', Bool.false_eq_true, if_false] using hbits

theorem text_ofCode (h : code < infinity) : text (ofCode negative code) =
    (if negative then "-" else "") ++ String.ofList (Numeral.shortest code).toChars := by
  have hlt : code < signBit := h.trans (by decide)
  have hcode : (ofCode negative code).toBits.toNat % signBit = code := by
    rw [toNat_toBits_ofCode h.le]
    split
    · rw [Nat.add_mod_left, Nat.mod_eq_of_lt hlt]
    · exact Nat.mod_eq_of_lt hlt
  have hsign : decide (signBit ≤ (ofCode negative code).toBits.toNat) = negative := by
    rw [Bool.eq_iff_iff, decide_eq_true_eq]
    exact signBit_le_iff h.le
  rw [text, hcode, hsign, textOfCode, if_neg h.not_gt, if_neg h.ne]
  cases negative
  · rw [if_neg Bool.false_ne_true, if_neg Bool.false_ne_true, String.empty_append]
  · rw [if_pos rfl, if_pos rfl]

/-- A finite float is a sign and a code. -/
theorem exists_ofCode {x : Float} (h : x.isFinite = true) : ∃ negative code, code < infinity ∧
    x = ofCode negative code :=
  ⟨_, _, code_lt_infinity h, (ofCode_toBits x).symm⟩

end BlockScript.Number
