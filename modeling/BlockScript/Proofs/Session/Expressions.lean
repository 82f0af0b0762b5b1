import BlockScript.Proofs.Grammar.PrefixForm
import BlockScript.Proofs.Session.Layout
import BlockScript.Proofs.Session.Pieces

/-!
The expressions of sources and their prefix forms.
-/
namespace BlockScript

/-- An expression at any depth of the program that the tokens of a source are read as. -/
def Source.Contains (source : String) (e : Expr) : Prop :=
  ∃ program, Program.ofTokens (scan source).tokens = .ok program ∧ ∃ s ∈ program, s.Holds e

namespace Expr

/-- An expression without strings, and without numbers that are too large for a finite float. -/
structure Plain (e : Expr) : Prop where
  noString (s : String) : ¬ (literal (.string s)).Inside e
  noOverflow (x : Float) : (literal (.number x)).Inside e → x.isInf = false

variable {source other : String} {e e' : Expr}

/-- A token of a source that is no string and not too large stands for a value of one word. -/
private theorem written_of_denotes {t : Token} {v : Value}
    (ht : Source.Spelled t.kind t.lexeme t.literal)
    (hv : Grammar.Denotes t v) (hstring : ∀ s, v ≠ .string s)
    (hoverflow : ∀ x, v = .number x → x.isInf = false) : v.Written := by
  obtain ⟨kind, lexeme, value, line⟩ := t
  cases hv with
  | nil => exact .nil
  | true | false => exact .bool _
  | string hk =>
    obtain rfl : kind = .string := hk
    cases ht with
    | string => exact absurd rfl (hstring _)
  | number hk =>
    obtain rfl : kind = .number := hk
    cases ht with
    | number _ hread =>
      obtain ⟨d, -, rfl⟩ := Option.map_eq_some_iff.mp hread
      have hfinite := hoverflow _ rfl
      apply Value.Written.number
      apply Nat.lt_of_le_of_ne d.toCode_le_infinity
      intro he
      rw [he] at hfinite
      exact absurd hfinite (by decide +kernel)

/-- The tokens of a source spell its expressions. -/
theorem Plain.printable (h : e.Plain) (hin : Source.Contains source e) : e.Printable := by
  obtain ⟨program, hprogram, s, hs, hholds⟩ := hin
  rw [Grammar.ofTokens_eq_ok_iff, Source.body_scan] at hprogram
  obtain ⟨used, marks, hused, hdeclaration⟩ := hprogram.exists_declaration hs
  obtain ⟨level, part, marks, hpart, hderives⟩ := hdeclaration.holds hholds
  have hspelled : ∀ t ∈ part, Source.Spelled t.kind t.lexeme t.literal :=
    fun t ht => Source.spelled_of_mem_lexed (hused (hpart ht))
  refine ⟨hderives.over hspelled, fun v hv => ?_⟩
  obtain ⟨_, within, _, hwithin, hliteral⟩ := hderives.inside hv
  obtain ⟨t, ht, hdenotes⟩ := hliteral.exists_denotes
  apply written_of_denotes (hspelled t (hwithin ht)) hdenotes
  · rintro text rfl
    exact h.noString text hv
  · rintro x rfl
    exact h.noOverflow x hv

/-- The prefix form is injective. Of two expressions in programs that are read from sources, at any
depth, without strings and without numbers that are too large, the forms are the same exactly if
the expressions are the same but for the lines of their tokens. -/
theorem prefixForm_eq_iff (hin : Source.Contains source e) (hin' : Source.Contains other e')
    (h : e.Plain) (h' : e'.Plain) :
    e.prefixForm = e'.prefixForm ↔
      e.mapTokens Token.unplaced = e'.mapTokens Token.unplaced := by
  constructor
  · exact (h.printable hin).prefixForm_inj (h'.printable hin')
  · intro he
    rw [← prefixForm_mapTokens Token.unplaced_keepsText e, he,
      prefixForm_mapTokens Token.unplaced_keepsText]

/-- A number written in two ways, on one line and on a second one, behind a name that is also the
head of a form. -/
theorem prefixForm_eq_iff_lines :
    let one : Value := .number (Number.ofCode false (Number.Numeral.toCode ⟨1, 0⟩))
    let e (line : Nat) : Expr := .assign ⟨.identifier, "a", .nil, 1⟩
      (.binary (.name ⟨.identifier, "group", .nil, line⟩) ⟨.symbol .minus, "-", .nil, line⟩
        (.literal one))
    Source.Contains "a = group - 1;" (e 1) ∧ Source.Contains "a =\ngroup - 1.0;" (e 2) ∧
      (e 1).prefixForm = "(= a (- group 1))" ∧
      (e 1).mapTokens Token.unplaced = (e 2).mapTokens Token.unplaced := by
  intro one e
  have hcontains (source text : String) (line : Nat)
      (htokens : (Source.scan source).tokens =
        [⟨.identifier, "a", .nil, 1⟩, ⟨.symbol .equal, "=", .nil, 1⟩,
          ⟨.identifier, "group", .nil, line⟩, ⟨.symbol .minus, "-", .nil, line⟩,
          ⟨.number, text, one, line⟩, ⟨.symbol .semicolon, ";", .nil, line⟩, .endOfInput line]) :
      Source.Contains source (e line) := by
    have hdifference : Grammar.Derives (.binary .term) ([⟨.identifier, "group", .nil, line⟩] ++
        ⟨.symbol .minus, "-", .nil, line⟩ :: [⟨.number, text, one, line⟩]) _ ([] ++ []) :=
      .binary (b := .term) (.operand (b := .term) (.operand (b := .factor) (.primary (.name rfl))))
        rfl List.mem_cons_self (.operand (b := .factor) (.primary (.literal (.number rfl))))
    refine ⟨[.evaluate (e line)], ?_, _, List.mem_singleton_self _, .evaluate .whole⟩
    rw [Grammar.ofTokens_eq_ok_iff, htokens]
    exact .cons (.expression (.assign rfl rfl (.equality (.operand (b := .equality)
      (.operand (b := .comparison) hdifference)))) rfl) .nil
  have hone (line : Nat) (v : Value) (h : (literal v).Inside (e line)) : v = one := by
    cases h with
    | assign h =>
      cases h with
      | left h => cases h
      | right h =>
        cases h
        rfl
  have hplain (line : Nat) : (e line).Plain := by
    refine ⟨fun s h => absurd (hone line _ h) (by simp [one]), fun x h => ?_⟩
    obtain rfl := Value.number.inj (hone line _ h)
    decide +kernel
  have hin := hcontains "a = group - 1;" "1" 1 (by decide +kernel)
  have hin' := hcontains "a =\ngroup - 1.0;" "1.0" 2 (by decide +kernel)
  have hform : (e 1).prefixForm = "(= a (- group 1))" := by decide +kernel
  have hform' : (e 2).prefixForm = "(= a (- group 1))" := by decide +kernel
  refine ⟨hin, hin', hform, ?_⟩
  exact (prefixForm_eq_iff hin hin' (hplain 1) (hplain 2)).mp (hform.trans hform'.symm)

end Expr
end BlockScript
