import BlockScript.Proofs.Number.Text
import BlockScript.Proofs.Session.Pieces
import BlockScript.Proofs.Source.Spelling

/-!
Printed numbers as sources. The text of a finite number and a semicolon are a program of one
expression, and its value is the number itself: a literal, or the negation of one where the text has
a sign.
-/
namespace BlockScript

namespace Source
variable {text rest : List Char}

private theorem Lexeme.fits_before_semicolon (h : Lexeme .number text) :
    Fits (.lexeme .number text) [';'] := by
  obtain ⟨first, tail, rfl, hfirst⟩ := h.number_head
  apply Fits.lexeme h
  · intro other longer hother hpre
    obtain ⟨c, more, rfl, -⟩ := hother.head
    obtain rfl := (List.cons_prefix_cons.mp hpre).1
    obtain ⟨rfl, -⟩ := hother.of_isDigit hfirst
    have hno : ';' ∉ c :: more := fun hmem => absurd (hother.isDigit_or_point ';' hmem) (by decide)
    exact (prefix_of_not_mem hpre hno).length_le
  · intro hpre
    obtain ⟨rfl, -⟩ := List.cons_prefix_cons.mp hpre
    exact absurd hfirst (by decide)

private theorem fits_minus (rest : List Char) : Fits (.lexeme (.symbol .minus) ['-']) rest := by
  apply Fits.lexeme (.symbol .minus)
  · intro other longer hother hpre
    obtain ⟨c, more, rfl, -⟩ := hother.head
    obtain ⟨rfl, -⟩ := List.cons_prefix_cons.mp hpre
    obtain ⟨s, -, hs⟩ := hother.of_other (by decide) (by decide) (by decide)
    cases s <;> simp_all [Symbol.spelling]
  · intro hpre
    exact absurd (List.cons_prefix_cons.mp hpre).1 (by decide)

private theorem cut_number (h : Lexeme .number text) :
    Cut (text ++ [';']) [.lexeme .number text, .lexeme (.symbol .semicolon) [';']] := by
  have hclosing : Cut ([';'] ++ []) [.lexeme (.symbol .semicolon) [';']] :=
    .piece (s := .lexeme (.symbol .semicolon) [';']) (Lexeme.symbol .semicolon).fits_alone .done
  exact .piece (s := .lexeme .number text) h.fits_before_semicolon hclosing

private theorem reads_of_cut {source : String} {pieces : List Segment} {program : List Stmt}
    (h : Cut source.toList pieces) (hfaults : (placed 1 pieces).filterMap Segment.error? = [])
    (hd : Grammar.Declarations ((placed 1 pieces).filterMap Segment.token?) program []) :
    Reads source program := by
  rw [reads_iff, faults, lexed, ← cut_iff.mp h]
  exact ⟨hfaults, hd⟩

private theorem declarations_of_derives {tokens : List Token} {closing : Token} {e : Expr}
    (h : Grammar.Derives .assignment tokens e []) (hc : closing.kind = .symbol .semicolon) :
    Grammar.Declarations (tokens ++ [closing]) [.evaluate e] [] := by
  have hd := Grammar.Declarations.cons (.expression h hc) .nil
  rwa [List.append_nil] at hd

section Values
variable {x : Float} (h : Lexeme .number text) (hx : Number.ofChars? text = some x)
include h hx

/-- A number and a semicolon are a program. -/
private theorem reads_number :
    Reads (String.ofList text ++ ";") [.evaluate (.literal (.number x))] := by
  have htext : (String.ofList text ++ ";").toList = text ++ [';'] := by simp
  refine reads_of_cut (htext ▸ cut_number h) ?_ ?_
  · simp [placed, Segment.error?, literal?, hx]
  · simp only [placed, List.filterMap_cons, List.filterMap_nil, Segment.token?, literal?, hx,
      Option.map_some]
    exact declarations_of_derives (.equality (.equality_of_primary (.literal (.number rfl)))) rfl

/-- A sign in front of a number is an operator. -/
private theorem reads_negated_number : ∃ operator : Token, operator.kind = .symbol .minus ∧
    Reads ("-" ++ String.ofList text ++ ";") [.evaluate (.unary operator (.literal (.number x)))] := by
  have htext : ("-" ++ String.ofList text ++ ";").toList = ['-'] ++ (text ++ [';']) := by simp
  have hcut : Cut (['-'] ++ (text ++ [';'])) _ :=
    .piece (s := .lexeme (.symbol .minus) ['-']) (fits_minus _) (cut_number h)
  refine ⟨⟨.symbol .minus, "-", .nil, 1⟩, rfl, reads_of_cut (htext ▸ hcut) ?_ ?_⟩
  · simp [placed, Segment.error?, literal?, hx]
  · simp only [placed, List.filterMap_cons, List.filterMap_nil, Segment.token?, literal?, hx,
      Option.map_some]
    have hd {t : Token} (ht : t.kind = .number) :
        Grammar.Derives .unary [⟨.symbol .minus, "-", .nil, 1⟩, t] _ [] :=
      .unary (.inr rfl) (.primary (.literal (.number ht)))
    exact declarations_of_derives (.equality (hd rfl).equality_of_unary) rfl

end Values

end Source

namespace Machine
open Number

private theorem evaluate_negated (m : Machine) {operator : Token}
    (h : operator.kind = .symbol .minus)
    (x : Float) : m.evaluate (.unary operator (.literal (.number x))) = (m, .ok (.number (-x))) := by
  have happly : (Value.number x).applyUnary operator.kind = .ok (.number (-x)) := by
    rw [h]
    rfl
  have hvalue : Expr.evaluate m.current (.unary operator (.literal (.number x))) m.environment =
      Run.blame operator ((Value.number x).applyUnary operator.kind) m.environment := rfl
  rw [happly] at hvalue
  rw [evaluate, value, hvalue]
  rfl

/-- Printed numbers read back. The text of a finite number and a semicolon are a source without
errors and a program of one expression, which in every machine has just this number as its value:
its literal, or the negation of a literal where the number has a sign. But for the sign the text is
a numeral without an exponent, which no other one that is read as the same number beats in digits,
and with no zero at its end behind a point. -/
theorem evaluate_display (x : Float) (h : x.isFinite = true) :
    (∃ e, Source.Reads ((Value.number x).display ++ ";") [.evaluate e] ∧
      (∀ m : Machine, m.evaluate e = (m, .ok (.number x))) ∧
      if signBit ≤ x.toBits.toNat then
        ∃ operator y, e = .unary operator (.literal (.number y)) ∧ operator.kind = .symbol .minus ∧
          y.toBits.toNat = x.toBits.toNat - signBit
      else e = .literal (.number x)) ∧
    ∃ d : Numeral,
      (Value.number x).display =
        (if signBit ≤ x.toBits.toNat then "-" else "") ++ String.ofList d.toChars ∧
      (∀ other : Numeral, ofChars? other.toChars = ofChars? d.toChars →
        ∀ length, other.DigitsWithin length → d.DigitsWithin length) ∧
      (d.places = 0 ∨ d.digits % 10 ≠ 0) := by
  obtain ⟨negative, code, hcode, rfl⟩ := exists_ofCode h
  have hlexeme := (Numeral.shortest code).lexeme_toChars
  have hread := ofChars?_shortest hcode
  have hsign : signBit ≤ (ofCode negative code).toBits.toNat ↔ negative = true :=
    signBit_le_iff hcode.le
  have hdisplay : (Value.number (ofCode negative code)).display = _ := text_ofCode hcode
  constructor
  · rw [hdisplay]
    cases negative with
    | false =>
      refine ⟨.literal (.number (ofCode false code)), ?_, fun m => rfl, ?_⟩
      · rw [if_neg Bool.false_ne_true, String.empty_append]
        exact Source.reads_number hlexeme hread
      · rw [if_neg (mt hsign.mp Bool.false_ne_true)]
    | true =>
      obtain ⟨operator, hminus, hreads⟩ := Source.reads_negated_number hlexeme hread
      rw [if_pos rfl]
      refine ⟨.unary operator (.literal (.number (ofCode false code))), hreads, fun m => ?_, ?_⟩
      · rw [m.evaluate_negated hminus, neg_ofCode hcode.le]
        rfl
      · rw [if_pos (hsign.mpr rfl)]
        refine ⟨operator, _, rfl, hminus, ?_⟩
        rw [toNat_toBits_ofCode hcode.le, toNat_toBits_ofCode hcode.le, if_pos rfl,
          if_neg Bool.false_ne_true, Nat.add_sub_cancel_left]
  · refine ⟨Numeral.shortest code, ?_, fun other hother length hlength => ?_,
      Numeral.shortest_trimmed hcode⟩
    · simp only [hdisplay, hsign]
    · rw [hread, ofChars?, other.ofChars?_toChars, Option.map_some, Option.some_inj] at hother
      have hsame := ofCode_inj other.toCode_le_infinity hcode.le hother
      exact Numeral.shortest_fewest hcode hsame hlength

/-- The number nearest to minus a tenth. -/
theorem evaluate_display_tenth :
    let m := Machine.new (.buffer "")
    let x := ofCode true 4591870180066957722
    x.isFinite = true ∧ (Value.number x).display = "-0.1" ∧
      ∃ e, Source.Reads "-0.1;" [.evaluate e] ∧ m.evaluate e = (m, .ok (.number x)) := by
  intro m x
  have hfinite : x.isFinite = true := by decide +kernel
  have hdisplay : (Value.number x).display = "-0.1" := by decide +kernel
  obtain ⟨e, hreads, hvalue, -⟩ := (evaluate_display x hfinite).1
  rw [hdisplay] at hreads
  exact ⟨hfinite, hdisplay, e, hreads, hvalue m⟩

end Machine
end BlockScript
