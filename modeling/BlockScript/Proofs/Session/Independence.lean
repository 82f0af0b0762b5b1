import BlockScript.Proofs.Evaluation.Agreement
import BlockScript.Proofs.Session.Reports

/-!
Unrelated bindings never influence a program. What it prints, what stops it and what it does to its
variables depend on nothing but the globals that it names. Nor do outputs: machines with the same
globals print and report the same wherever their lines go.
-/
namespace BlockScript

private theorem Frames.AgreeOn.globals {V : Set String} {f g : Frame}
    (h : Frames.AgreeOn V [f] [g]) : Frame.AgreeOn V f g := by
  cases h with
  | cons htop _ => exact htop

namespace Machine

/-- Independence. Two machines at rest whose globals agree on every name of a program print the
same lines, which adds the same text to what each has printed, are stopped by the same error or by
nothing, and are at rest again with globals that agree on those names; every other global is in each
what it was. -/
theorem interpret_of_agreeing_globals {m m' : Machine} (h : m.AtRest) (h' : m'.AtRest)
    (program : List Stmt)
    (hagree : Frame.AgreeOn {name | name ∈ Stmt.allNames program} m.globals m'.globals) :
    ∃ lines error next next',
      (m.interpret program = (next, Option.map Abort.runtime error) ∧
        m'.interpret program = (next', error.map Abort.runtime)) ∧
      (next.output = m.output.printAll lines ∧ next'.output = m'.output.printAll lines) ∧
      (m.output.Appends lines next.output ∧ m'.output.Appends lines next'.output) ∧
      (next.AtRest ∧ next'.AtRest) ∧
      Frame.AgreeOn {name | name ∈ Stmt.allNames program} next.globals next'.globals ∧
      Frame.AgreeOn {name | name ∉ Stmt.allNames program} m.globals next.globals ∧
      Frame.AgreeOn {name | name ∉ Stmt.allNames program} m'.globals next'.globals := by
  obtain ⟨lines, error, next, answered, rested, printed, executed⟩ := h.interpret program
  obtain ⟨lines', error', next', answered', rested', printed', executed'⟩ := h'.interpret program
  -- The first execution is also one over the globals of the other machine, which has no other.
  obtain ⟨σ, executedThere, hafter⟩ := executed.agrees (fun _ hname => hname) (.cons hagree .nil)
  obtain ⟨rfl, rfl, rfl⟩ := executedThere.unique executed'
  have unnamed : ∀ name ∈ Stmt.allNames program, name ∉ {name | name ∉ Stmt.allNames program} :=
    fun _ hname hunnamed => hunnamed hname
  have appended := Output.appends_printAll m.output lines'
  have appended' := Output.appends_printAll m'.output lines'
  rw [← printed] at appended
  rw [← printed'] at appended'
  exact ⟨lines', error', next, next', ⟨answered, answered'⟩, ⟨printed, printed'⟩,
    ⟨appended, appended'⟩, ⟨rested, rested'⟩, hafter.globals, (executed.keeps unnamed).globals,
    (executed'.keeps unnamed).globals⟩

/-- A block that changes a shared global and then fails, over machines that differ in the rest. -/
theorem interpret_of_agreeing_globals_unbound :
    let a : Token := ⟨.identifier, "a", .nil, 1⟩
    let b : Token := ⟨.identifier, "b", .nil, 1⟩
    let c : Token := ⟨.identifier, "c", .nil, 1⟩
    let program : List Stmt := [.block [.declare b (some (.name a)),
      .evaluate (.assign a (.literal .nil)), .print (.name b), .print (.name c)]]
    let m : Machine :=
      ⟨⟨[⟨[("a", .string "v"), ("d", .string "w")], none⟩]⟩, .global, .buffer "v\n"⟩
    let m' : Machine := ⟨⟨[⟨[("e", .nil), ("a", .string "v")], none⟩]⟩, .global, .device .full⟩
    (m.AtRest ∧ m'.AtRest ∧
      Frame.AgreeOn {name | name ∈ Stmt.allNames program} m.globals m'.globals) ∧
    (m'.interpret program).2 = some (.runtime (.undefinedVariable c)) ∧
      (∃ lines, m.output.printAll lines = .buffer "v\nv\n" ∧
        (m'.interpret program).1.output = m'.output.printAll lines) ∧
      Finmap.lookup "a" (m'.interpret program).1.globals = some .nil ∧
      Finmap.lookup "d" (m.interpret program).1.globals = some (.string "w") := by
  intro a b c program m m'
  have hrest : m.AtRest := ⟨⟨.global _, rfl⟩, rfl⟩
  have hrest' : m'.AtRest := ⟨⟨.global _, rfl⟩, rfl⟩
  have hagree : Frame.AgreeOn {name | name ∈ Stmt.allNames program} m.globals m'.globals := by
    have hall : ∀ name ∈ Stmt.allNames program,
        Finmap.lookup name m.globals = Finmap.lookup name m'.globals := by
      decide +kernel
    exact hall
  obtain ⟨lines, error, next, next', ⟨answered, answered'⟩, ⟨printed, printed'⟩, -, -, hnamed,
    hunnamed, -⟩ := interpret_of_agreeing_globals hrest hrest' program hagree
  have hrun : m.interpret program =
      (⟨⟨[⟨[("a", .nil), ("d", .string "w")], none⟩]⟩, .global, .buffer "v\nv\n"⟩,
        some (.runtime (.undefinedVariable c))) := rfl
  have hnext := answered.symm.trans hrun
  have hstopped : error.map Abort.runtime = some (.runtime (.undefinedVariable c)) :=
    congrArg Prod.snd hnext
  cases congrArg Prod.fst hnext
  have ha : Finmap.lookup "a" next'.globals = some .nil := by
    rw [← hnamed "a" (by decide)]
    decide +kernel
  rw [answered, answered']
  exact ⟨⟨hrest, hrest', hagree⟩, hstopped, ⟨lines, printed.symm, printed'⟩, ha,
    (hunnamed "d" (by decide)).symm⟩

/-- Two machines at rest with the same globals. -/
structure Twins (m m' : Machine) : Prop where
  left : m.AtRest
  right : m'.AtRest
  globals : m.globals = m'.globals

namespace Twins
variable {m m' : Machine}

theorem new (output other : Output) : (Machine.new output).Twins (Machine.new other) :=
  ⟨.new output, .new other, rfl⟩

theorem interpret (h : m.Twins m') (program : List Stmt) : ∃ lines error next next',
    m.interpret program = (next, Option.map Abort.runtime error) ∧
      m'.interpret program = (next', Option.map Abort.runtime error) ∧ next.Twins next' ∧
      next.output = m.output.printAll lines ∧ next'.output = m'.output.printAll lines := by
  obtain ⟨lines, error, next, hrun, rested, hprinted, hexecuted⟩ := h.left.interpret program
  obtain ⟨lines', error', next', hrun', rested', hprinted', hexecuted'⟩ :=
    h.right.interpret program
  rw [← h.globals] at hexecuted'
  obtain ⟨rfl, rfl, hglobals⟩ := hexecuted.unique hexecuted'
  exact ⟨_, _, next, next', hrun, hrun', ⟨rested, rested', (List.cons.inj hglobals).1.symm⟩,
    hprinted, hprinted'⟩

theorem run (h : m.Twins m') (source : String) : ∃ lines,
    (m.run source).2 = (m'.run source).2 ∧ (m.run source).1.Twins (m'.run source).1 ∧
      (m.run source).1.output = m.output.printAll lines ∧
      (m'.run source).1.output = m'.output.printAll lines := by
  rcases Source.faulty_or_reads source with hfaulty | ⟨program, hreads⟩
  · rw [run_of_faulty hfaulty, run_of_faulty hfaulty]
    exact ⟨[], rfl, h, rfl, rfl⟩
  · obtain ⟨lines, error, next, next', hrun, hrun', htwins, hprinted, hprinted'⟩ :=
      h.interpret program
    rw [run_of_reads hreads, run_of_reads hreads, hrun, hrun']
    exact ⟨lines, rfl, htwins, hprinted, hprinted'⟩

end Twins

end Machine
end BlockScript
