import BlockScript.Proofs.Evaluation.Printing
import BlockScript.Session

/-!
Machines between programs. Whatever a host asked of a machine before, only the global scope is
left when the machine answers, so that the next program starts on a stack with one map.
-/
namespace BlockScript

/-- What a host may ask of a machine. -/
inductive Call where
  | run (source : String)
  | interpret (program : List Stmt)
  | evaluate (expression : Expr)
  | clearOutput

namespace Machine

/-- The machine after one call. -/
def perform (m : Machine) : Call → Machine
  | .run source => (m.run source).1
  | .interpret program => (m.interpret program).1
  | .evaluate expression => (m.evaluate expression).1
  | .clearOutput => m.clearOutput

/-- The machine after a sequence of calls. -/
def after (output : Output) (calls : List Call) : Machine := calls.foldl perform (new output)

/-- The variables of the global scope. -/
def globals (m : Machine) : Frame := m.frames.getLastD ∅

/-- A machine in the global scope with no other scope on top of it. -/
structure AtRest (m : Machine) : Prop where
  formed : m.Formed
  current : m.current = ScopeId.global

namespace AtRest
variable {m : Machine}

/-- Only the globals are on the stack of a machine at rest. -/
theorem frames_eq (h : m.AtRest) : m.frames = [m.globals] := by
  obtain ⟨scope, below, hs, hlen, _⟩ := h.formed.exists_top
  have hbelow : below = [] := List.eq_nil_of_length_eq_zero (hlen.symm.trans h.current)
  rw [globals, frames, Environment.frames, hs, hbelow]
  rfl

theorem new (output : Output) : (Machine.new output).AtRest := ⟨.empty, rfl⟩

theorem continues {next : Machine} {lines : List String} (h : m.AtRest)
    (hc : m.Continues lines next) : next.AtRest :=
  ⟨hc.formed, hc.current.trans h.current⟩

/-- A program runs as over a stack with only the globals, and leaves only the globals. -/
theorem interpret (h : m.AtRest) (program : List Stmt) : ∃ lines error next,
    m.interpret program = (next, error.map Abort.runtime) ∧ next.AtRest ∧
      next.output = m.output.printAll lines ∧
      ExecutesAll [m.globals] program lines error [next.globals] := by
  obtain ⟨lines, error, next, ended, hc, executed⟩ := executeAll_follows h.formed program
  have rested := h.continues hc
  refine ⟨lines, error, next, ?_, rested, hc.output, ?_⟩
  · rw [Machine.interpret, ended]
    cases error <;> rfl
  · rwa [h.frames_eq, rested.frames_eq] at executed

theorem evaluate (h : m.AtRest) (e : Expr) : (m.evaluate e).1.AtRest := by
  obtain ⟨result, next, replied, hc, _⟩ := value_simulates h.formed e
  have answered : (m.evaluate e).1 = next := by
    rw [Machine.evaluate, replied]
    cases result <;> rfl
  rw [answered]
  exact h.continues hc

theorem interpret_fst (h : m.AtRest) (program : List Stmt) : (m.interpret program).1.AtRest := by
  obtain ⟨lines, error, next, answered, rested, _⟩ := h.interpret program
  rwa [answered]

theorem run (h : m.AtRest) (source : String) : (m.run source).1.AtRest := by
  by_cases hr : ∃ program, Source.Reads source program
  · obtain ⟨program, reads⟩ := hr
    rw [run_of_reads reads]
    exact h.interpret_fst program
  · rwa [run_fst_of_not_reads hr]

theorem perform (h : m.AtRest) (call : Call) : (m.perform call).AtRest := by
  cases call with
  | run source => exact h.run source
  | interpret program => exact h.interpret_fst program
  | evaluate expression => exact h.evaluate expression
  | clearOutput => exact ⟨h.formed, h.current⟩

/-- Every sequence of calls leaves a machine at rest. -/
theorem after (output : Output) (calls : List Call) : (Machine.after output calls).AtRest := by
  have all : ∀ m : Machine, m.AtRest → (calls.foldl Machine.perform m).AtRest := by
    induction calls with
    | nil =>
      intro m h
      exact h
    | cons call rest ih =>
      intro m h
      apply ih
      exact h.perform call
  exact all _ (new output)

end AtRest

/-- Block-structured programs. After any calls, a program has exactly one execution over a stack
that holds only the globals, and the machine prints the lines of that execution in their order,
which adds them to the text, ends with its globals, and is stopped by its error or by nothing. -/
theorem interpret_refines_stack (output : Output) (calls : List Call) (program : List Stmt) :
    ∃ lines error,
      (∀ lines' error' σ, ExecutesAll [(after output calls).globals] program lines' error' σ ↔
        lines' = lines ∧ error' = error ∧
          σ = [((after output calls).interpret program).1.globals]) ∧
      ((after output calls).interpret program).1.output =
        (after output calls).output.printAll lines ∧
      (after output calls).output.Appends lines ((after output calls).interpret program).1.output ∧
      ((after output calls).interpret program).2 = error.map Abort.runtime := by
  obtain ⟨lines, error, next, answered, _, printed, executed⟩ :=
    (AtRest.after output calls).interpret program
  rw [answered]
  have appended := Output.appends_printAll (after output calls).output lines
  rw [← printed] at appended
  refine ⟨lines, error, fun lines' error' σ => ⟨executed.unique, ?_⟩, printed, appended, rfl⟩
  rintro ⟨rfl, rfl, rfl⟩
  exact executed

end Machine
end BlockScript
