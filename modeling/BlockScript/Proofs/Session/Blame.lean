import BlockScript.Proofs.Evaluation.Blame
import BlockScript.Proofs.Session.Pieces
import BlockScript.Proofs.Session.Reports

/-!
Runtime errors point into the source that was run. Variables keep values and no tokens, so whatever
ran before, an error has a name or an operator of the source, on one of its lines.
-/
namespace BlockScript

/-- The first letter tells the errors of programs from those of tokens that are no operators. -/
theorem RuntimeError.Blames.head_message {P : Token → Prop} {error : RuntimeError}
    (h : error.Blames P) : error.message.toList.head? ≠ some 'E' := by
  cases h with
  | @undefinedVariable name =>
    change ("Undefined variable '" ++ name.lexeme ++ "'.").toList.head? ≠ _
    rw [String.toList_append, String.toList_append, List.append_assoc,
      List.head?_append_of_ne_nil _ (by decide)]
    decide
  | negation =>
    change TypeFault.operandNotNumber.message.toList.head? ≠ _
    decide
  | sum =>
    change TypeFault.operandsNotAlike.message.toList.head? ≠ _
    decide
  | numeric =>
    change TypeFault.operandsNotNumbers.message.toList.head? ≠ _
    decide

theorem RuntimeError.Blames.message_ne {P : Token → Prop} {error : RuntimeError}
    (h : error.Blames P) (fault : TypeFault) (hf : fault.message.toList.head? = some 'E') :
    error.message ≠ fault.message := by
  intro he
  apply h.head_message
  rw [he, hf]

/-- Only identifiers and operators that reject operands are blamed. -/
theorem RuntimeError.Blames.kind {P : Token → Prop} {error : RuntimeError}
    (h : error.Blames P) : error.token.kind = .identifier ∨
      ∃ s ∈ Symbol.plus :: Symbol.numeric, error.token.kind = .symbol s := by
  cases h with
  | undefinedVariable _ hk => exact .inl hk
  | negation _ hk => exact .inr ⟨.minus, by decide, hk⟩
  | sum _ hk => exact .inr ⟨.plus, by decide, hk⟩
  | numeric _ hk hs => exact .inr ⟨_, List.mem_cons_of_mem _ hs, hk⟩

namespace Machine

/-- What stops a source is an error at its own names and operators. -/
theorem AtRest.blames {m : Machine} (h : m.AtRest) {source : String} {abort : Abort}
    (ha : .aborted abort ∈ (m.run source).2) : ∃ error, abort = .runtime error ∧
      error.Blames fun t => t ∈ Source.lexed 1 source.toList := by
  rcases Source.faulty_or_reads source with hfaulty | ⟨program, hreads⟩
  · rw [run_of_faulty hfaulty] at ha
    simp at ha
  · obtain ⟨lines, error, next, hrun, -, -, hexecuted⟩ := h.interpret program
    rw [run_of_reads hreads, hrun] at ha
    cases error with
    | none => cases ha
    | some error =>
      cases List.mem_singleton.mp ha
      have hover := (Source.reads_iff.mp hreads).2.over fun t ht => ht
      exact ⟨error, rfl, hexecuted.blames hover⟩

/-- Runtime errors. After any calls, what stops a source is an error of the program that points to
one of the tokens of that source and to one of its lines. It is an unbound identifier, or an operator
that takes numbers or two strings with operands it does not take; tokens that are no operators, the
word for not and the equalities are never blamed. -/
theorem run_blames_source (output : Output) (calls : List Call) (source : String) (abort : Abort)
    (h : .aborted abort ∈ ((after output calls).run source).2) :
    ∃ error, abort = .runtime error ∧ error.token ∈ (Source.scan source).tokens ∧
      1 ≤ error.line ∧ error.line ≤ 1 + source.toList.count '\n' ∧
      ((∃ name, error = .undefinedVariable name ∧ name.kind = .identifier) ∨
        ∃ fault operator, error = .type fault operator ∧
          (operator.kind = .symbol .plus ∧
              error.message = "Operands must be two numbers or two strings." ∨
            operator.kind = .symbol .minus ∧ (error.message = "Operand must be a number." ∨
              error.message = "Operands must be numbers.") ∨
            (∃ s ∈ [Symbol.slash, .star, .greater, .greaterEqual, .less, .lessEqual],
              operator.kind = .symbol s) ∧ error.message = "Operands must be numbers.")) ∧
      error.message ≠ "Expected a binary operator." ∧
      error.message ≠ "Expected a unary operator." ∧
      ∀ s ∈ [Symbol.bang, .equalEqual, .bangEqual], error.token.kind ≠ .symbol s := by
  obtain ⟨error, rfl, hblames⟩ := (AtRest.after output calls).blames h
  have htoken : error.token ∈ Source.lexed 1 source.toList := hblames.token
  obtain ⟨hfirst, hlast⟩ := Source.line_of_mem_lexed htoken
  refine ⟨error, rfl, List.mem_append_left _ htoken, hfirst, hlast, ?_,
    hblames.message_ne .notBinary (by decide),
    hblames.message_ne .notUnary (by decide), ?_⟩
  · cases hblames with
    | undefinedVariable _ hk => exact .inl ⟨_, rfl, hk⟩
    | negation _ hk => exact .inr ⟨_, _, rfl, .inr (.inl ⟨hk, .inl rfl⟩)⟩
    | sum _ hk => exact .inr ⟨_, _, rfl, .inl ⟨hk, rfl⟩⟩
    | numeric _ hk hs =>
      rcases List.mem_cons.mp hs with rfl | hs
      · exact .inr ⟨_, _, rfl, .inr (.inl ⟨hk, .inr rfl⟩)⟩
      · exact .inr ⟨_, _, rfl, .inr (.inr ⟨⟨_, hs, hk⟩, rfl⟩)⟩
  · intro s hs hk
    have hother : ∀ s ∈ [Symbol.bang, .equalEqual, .bangEqual],
        s ∉ Symbol.plus :: Symbol.numeric := by decide
    rcases hblames.kind with hname | ⟨operator, hoperator, hkind⟩
    · cases hname.symm.trans hk
    · cases hkind.symm.trans hk
      exact hother s hs hoperator

/-- A comparison over two lines, of a variable that an earlier source declared. -/
theorem run_blames_source_comparison :
    let less : Token := ⟨.symbol .less, "<", .nil, 2⟩
    let source := "a\n< a;"
    .aborted (.runtime (.type .operandsNotNumbers less)) ∈
        ((after (.buffer "") [.run "var a;"]).run source).2 ∧
      less ∈ (Source.scan source).tokens ∧ less.line ≤ 1 + source.toList.count '\n' := by
  intro less source
  let first : Token := ⟨.identifier, "a", .nil, 1⟩
  let second : Token := ⟨.identifier, "a", .nil, 2⟩
  let name : Token := ⟨.identifier, "a", .nil, 1⟩
  have hdeclare : Source.Reads "var a;" [.declare name none] := by
    have hlexed : Source.lexed 1 "var a;".toList =
        [⟨.keyword .varWord, "var", .nil, 1⟩, name, ⟨.symbol .semicolon, ";", .nil, 1⟩] := by
      decide +kernel
    rw [Source.reads_iff, hlexed]
    exact ⟨by decide +kernel, .cons (.variable rfl rfl rfl) .nil⟩
  have hcompare : Source.Reads source [.evaluate (.binary (.name first) less (.name second))] := by
    have hlexed : Source.lexed 1 source.toList =
        [first, less, second, ⟨.symbol .semicolon, ";", .nil, 2⟩] := by
      decide +kernel
    have hname (t : Token) (hk : t.kind = .identifier) :
        Grammar.Derives (.binary .term) [t] (.name t) [] :=
      .operand (b := .term) (.operand (b := .factor) (.primary (.name hk)))
    have hleft : Grammar.Derives (.binary .comparison) [first] (.name first) [] :=
      .operand (b := .comparison) (hname first rfl)
    have hbinary : Grammar.Derives (.binary .comparison) [first, less, second]
        (.binary (.name first) less (.name second)) [] :=
      .binary (s := .less) hleft rfl (by decide) (hname second rfl)
    have hexpression : Grammar.Derives .assignment [first, less, second]
        (.binary (.name first) less (.name second)) [] :=
      .equality (.operand (b := .equality) hbinary)
    rw [Source.reads_iff, hlexed]
    exact ⟨by decide +kernel, .cons (.expression hexpression rfl) .nil⟩
  have h : .aborted (.runtime (.type .operandsNotNumbers less)) ∈
      ((after (.buffer "") [.run "var a;"]).run source).2 := by
    have hafter : after (.buffer "") [.run "var a;"] =
        ((new (.buffer "")).interpret [.declare name none]).1 :=
      congrArg Prod.fst (run_of_reads hdeclare _)
    rw [hafter, run_of_reads hcompare]
    exact List.mem_singleton.mpr rfl
  obtain ⟨error, he, htoken, -, hline, -⟩ := run_blames_source _ _ source _ h
  cases he
  exact ⟨h, htoken, hline⟩

end Machine
end BlockScript
