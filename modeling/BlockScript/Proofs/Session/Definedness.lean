import BlockScript.Proofs.Evaluation.Definedness
import BlockScript.Proofs.Session.Calls

/-!
Undefined variables of a session. Whether a variable is defined where a program reaches it depends
on its place in the text and on the names of the globals, not on any value.
-/
namespace BlockScript
namespace Machine

/-- Definedness is lexical. Let the steps of a program be walked from the names of the globals. If
every name is found, then no variable is undefined. Otherwise, the first name that is not found is
the undefined variable that stops the program, or an operator before it is refused. -/
theorem interpret_of_walk {m : Machine} (h : m.AtRest) (program : List Stmt) :
    (∀ Γ, NameStack.walk [m.globals.keys] (Stmt.allSteps program) = .ok Γ →
      ∀ t, (m.interpret program).2 ≠ some (.runtime (.undefinedVariable t))) ∧
    ∀ t, NameStack.walk [m.globals.keys] (Stmt.allSteps program) = .error t →
      ∃ before after Γ, Stmt.allSteps program = before ++ .use t :: after ∧
        NameStack.walk [m.globals.keys] before = .ok Γ ∧ ¬ Γ.Has t.lexeme ∧
        ((m.interpret program).2 = some (.runtime (.undefinedVariable t)) ∨
          ∃ earlier operator later fault, before = earlier ++ .apply operator :: later ∧
            (m.interpret program).2 = some (.runtime (.type fault operator))) := by
  obtain ⟨lines, error, next, answered, -, -, executed⟩ := h.interpret program
  have hpasses : NameStack.Passes [m.globals.keys] (Stmt.allSteps program) error
      [next.globals.keys] := executed.passes
  have hstopped : (m.interpret program).2 = error.map Abort.runtime := congrArg Prod.snd answered
  rw [hstopped]
  constructor
  · intro Γ hwalk t habort
    obtain ⟨_, herror, ⟨⟩⟩ := Option.map_eq_some_iff.mp habort
    exact hpasses.ne_undefined hwalk t herror
  · intro t hwalk
    obtain ⟨before, after, Γ, hsteps, hbefore, hmissing, hreason⟩ := hpasses.stopped_of_walk hwalk
    refine ⟨before, after, Γ, hsteps, hbefore, hmissing, ?_⟩
    rcases hreason with rfl | ⟨earlier, operator, later, fault, hsplit, rfl⟩
    · exact .inl rfl
    · exact .inr ⟨earlier, operator, later, fault, hsplit, rfl⟩

/-- A block reads a global and hides it from then on; behind the block its own variable is gone, but
an operator before that place is refused. -/
theorem interpret_of_walk_refused :
    let a : Token := ⟨.identifier, "a", .nil, 1⟩
    let b : Token := ⟨.identifier, "b", .nil, 2⟩
    let minus : Token := ⟨.symbol .minus, "-", .nil, 2⟩
    let plus : Token := ⟨.symbol .plus, "+", .nil, 2⟩
    let block : Stmt := .block [.declare a (some (.name a)), .declare b (some (.name a))]
    let program := [block, .print (.binary (.unary minus (.name a)) plus (.name b))]
    let m : Machine := ⟨⟨[⟨[("a", .string "v")], none⟩]⟩, .global, .buffer ""⟩
    (m.AtRest ∧ NameStack.walk [m.globals.keys] (Stmt.allSteps program) = .error b) ∧
      (∃ earlier later after, Stmt.allSteps program =
        earlier ++ .apply minus :: later ++ .use b :: after) ∧
      (m.interpret program).2 = some (.runtime (.type .operandNotNumber minus)) := by
  intro a b minus plus block program m
  have hrest : m.AtRest := ⟨⟨.global _, rfl⟩, rfl⟩
  have hwalk : NameStack.walk [m.globals.keys] (Stmt.allSteps program) = .error b := by
    decide +kernel
  have hrun : (m.interpret program).2 = some (.runtime (.type .operandNotNumber minus)) := rfl
  obtain ⟨before, after, Γ, hsteps, -, -, hreason⟩ := (interpret_of_walk hrest program).2 b hwalk
  rw [hrun] at hreason
  rcases hreason with hundefined | ⟨earlier, operator, later, fault, hbefore, hrefused⟩
  · cases hundefined
  · cases hrefused
    exact ⟨⟨hrest, hwalk⟩, ⟨earlier, later, after, hbefore ▸ hsteps⟩, hrun⟩

end Machine
end BlockScript
