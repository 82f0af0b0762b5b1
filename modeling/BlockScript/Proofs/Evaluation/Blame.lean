import BlockScript.Proofs.Evaluation.BigStep
import BlockScript.Proofs.Grammar.Vocabulary

/-!
The errors of programs and the tokens they point to. Only operators of the grammar are applied in a
tree that was read, so a fault is always one of operands, and only names and operators of the tree
are blamed.
-/
namespace BlockScript

/-- The operators that take two numbers and nothing else. -/
def Symbol.numeric : List Symbol :=
  [.minus, .slash, .star, .greater, .greaterEqual, .less, .lessEqual]

/-- The errors of a program, each with a token that has a property. -/
inductive RuntimeError.Blames (P : Token → Prop) : RuntimeError → Prop where
  | undefinedVariable {name : Token} :
      P name → name.kind = .identifier → Blames P (.undefinedVariable name)
  | negation {operator : Token} :
      P operator → operator.kind = .symbol .minus → Blames P (.type .operandNotNumber operator)
  | sum {operator : Token} :
      P operator → operator.kind = .symbol .plus → Blames P (.type .operandsNotAlike operator)
  | numeric {operator : Token} {s : Symbol} :
      P operator → operator.kind = .symbol s → s ∈ Symbol.numeric →
      Blames P (.type .operandsNotNumbers operator)

theorem RuntimeError.Blames.token {P : Token → Prop} {error : RuntimeError} (h : error.Blames P) :
    P error.token := by
  cases h <;> assumption

namespace Value
variable {left right operand : Value} {fault : TypeFault}

private theorem onNumbers_eq_error {operation : Float → Float → Value}
    (h : onNumbers operation left right = .error fault) : fault = .operandsNotNumbers := by
  unfold onNumbers at h
  split at h
  · cases h
  · exact (Except.error.inj h).symm

private theorem add_eq_error (h : add left right = .error fault) : fault = .operandsNotAlike := by
  unfold add at h
  split at h
  · cases h
  · cases h
  · exact (Except.error.inj h).symm

private theorem applyUnary_eq_error {kind : TokenKind}
    (hk : kind = .symbol .bang ∨ kind = .symbol .minus)
    (h : applyUnary kind operand = .error fault) :
    kind = .symbol .minus ∧ fault = .operandNotNumber := by
  rcases hk with rfl | rfl
  · cases h
  · refine ⟨rfl, ?_⟩
    change operand.negate = .error fault at h
    unfold negate at h
    split at h
    · cases h
    · exact (Except.error.inj h).symm

/-- The operators of the grammar reject operands of the wrong kind and nothing else, and equality
rejects none. -/
private theorem applyBinary_eq_error {b : Grammar.Binding} {s : Symbol} (hs : s ∈ b.operators)
    (h : applyBinary (.symbol s) left right = .error fault) :
    s = .plus ∧ fault = .operandsNotAlike ∨ s ∈ Symbol.numeric ∧ fault = .operandsNotNumbers := by
  have hnumeric : s ∈ Symbol.numeric → fault = .operandsNotNumbers := by
    intro hmem
    simp only [Symbol.numeric, List.mem_cons, List.not_mem_nil, or_false] at hmem
    rcases hmem with rfl | rfl | rfl | rfl | rfl | rfl | rfl <;> exact onNumbers_eq_error h
  cases b with
  | equality =>
    simp only [Grammar.Binding.operators, List.mem_cons, List.not_mem_nil, or_false] at hs
    rcases hs with rfl | rfl <;> cases h
  | comparison =>
    have hmem : ∀ s ∈ Grammar.Binding.comparison.operators, s ∈ Symbol.numeric := by decide
    exact .inr ⟨hmem s hs, hnumeric (hmem s hs)⟩
  | term =>
    simp only [Grammar.Binding.operators, List.mem_cons, List.not_mem_nil, or_false] at hs
    rcases hs with rfl | rfl
    · exact .inr ⟨by decide, hnumeric (by decide)⟩
    · exact .inl ⟨rfl, add_eq_error h⟩
  | factor =>
    have hmem : ∀ s ∈ Grammar.Binding.factor.operators, s ∈ Symbol.numeric := by decide
    exact .inr ⟨hmem s hs, hnumeric (hmem s hs)⟩

end Value

/-- An expression is stopped by errors at its own names and operators. -/
theorem Evaluates.blames {P : Token → Prop} {σ σ' : Frames} {e : Expr}
    {result : Except RuntimeError Value} (h : Evaluates σ e result σ') (he : e.Over P)
    {error : RuntimeError} (hr : result = .error error) : error.Blames P := by
  induction h with
  | literal | name | assign => cases hr
  | nameUnbound =>
    cases hr
    exact .undefinedVariable he.1 he.2
  | group _ ih => exact ih he hr
  | @unary _ _ operator _ value _ _ =>
    obtain ⟨hP, hk, -⟩ := he
    cases hv : value.applyUnary operator.kind with
    | ok v =>
      rw [hv] at hr
      cases hr
    | error fault =>
      rw [hv] at hr
      cases hr
      obtain ⟨hminus, rfl⟩ := Value.applyUnary_eq_error hk hv
      exact .negation hP hminus
  | unaryStopped _ ih => exact ih he.2.2 hr
  | @binary _ _ _ _ operator _ first second _ _ _ _ =>
    obtain ⟨-, ⟨hP, b, s, hs, hk⟩, -⟩ := he
    cases hv : Value.applyBinary operator.kind first second with
    | ok v =>
      rw [hv] at hr
      cases hr
    | error fault =>
      rw [hv] at hr
      cases hr
      rw [hk] at hv
      obtain ⟨rfl, rfl⟩ | ⟨hnumeric, rfl⟩ := Value.applyBinary_eq_error hs hv
      · exact .sum hP hk
      · exact .numeric hP hk hnumeric
  | leftStopped _ ih => exact ih he.1 hr
  | rightStopped _ _ _ ih => exact ih he.2.2 hr
  | assignUnbound =>
    cases hr
    exact .undefinedVariable he.1 he.2.1
  | assignStopped _ ih => exact ih he.2.2 hr

mutual

theorem Executes.blames {P : Token → Prop} {σ σ' : Frames} {s : Stmt} {lines : List String}
    {error : RuntimeError} (h : Executes σ s lines (some error) σ') (hs : s.Over P) :
    error.Blames P := by
  cases h with
  | evaluateStopped stopped | printStopped stopped => exact stopped.blames hs rfl
  | declareStopped stopped => exact stopped.blames hs.2.2 rfl
  | block executed => exact executed.blames hs

/-- A program is stopped by errors at its own names and operators. -/
theorem ExecutesAll.blames {P : Token → Prop} {σ σ' : Frames} {program : List Stmt}
    {lines : List String} {error : RuntimeError}
    (h : ExecutesAll σ program lines (some error) σ') (hs : Stmt.AllOver P program) :
    error.Blames P := by
  cases h with
  | next _ continued => exact continued.blames hs.2
  | stopped executed => exact executed.blames hs.1

end

end BlockScript
