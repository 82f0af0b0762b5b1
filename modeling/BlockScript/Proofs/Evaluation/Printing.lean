import BlockScript.Proofs.Evaluation.Simulation

/-!
What a program prints. The output of a machine takes one line for each print statement that
completes, and nothing else touches it.
-/
namespace BlockScript

namespace Run
variable {σ α β : Type} {x : Run σ α} {s next : σ}

/-- The state in which a run ends, stopped or not. -/
def final (x : Run σ α) (s : σ) : σ :=
  match x s with
  | .ok _ next => next
  | .error _ next => next

theorem final_of_ok {a : α} (h : x s = .ok a next) : x.final s = next := by
  rw [final, h]

theorem final_of_error {abort : Abort} (h : x s = .error abort next) : x.final s = next := by
  rw [final, h]

private theorem final_bind (x : Run σ α) (f : α → Run σ β) (s : σ) :
    (x >>= f).final s =
      match x s with
      | .ok a next => (f a).final next
      | .error _ next => next := by
  change Run.final (EStateM.bind x f) s = _
  rw [final, EStateM.bind]
  cases x s <;> rfl

end Run

namespace Output

/-- The text that got through. -/
def text : Output → String
  | buffer text => text
  | device d => d.sent

/-- Every write gets through. -/
def Working : Output → Prop
  | buffer _ => True
  | device d => ∀ n, d.accepts n = true

variable {output : Output}

private theorem Working.printLine (h : output.Working) (line : String) :
    (output.printLine line).Working := by
  cases output with
  | buffer text => trivial
  | device d => exact h

theorem Working.printAll (h : output.Working) (lines : List String) :
    (output.printAll lines).Working := by
  induction lines generalizing output with
  | nil => exact h
  | cons line rest ih => exact ih (h.printLine line)

private theorem Working.text_printLine (h : output.Working) (line : String) :
    (output.printLine line).text = output.text ++ (line ++ "\n") := by
  cases output with
  | buffer text => exact String.append_assoc
  | device d => exact if_pos (h d.writes)

/-- Printing adds the lines, each closed by a newline. -/
theorem Working.text_printAll (h : output.Working) (lines : List String) :
    (output.printAll lines).text = output.text ++ String.join (lines.map (· ++ "\n")) := by
  induction lines generalizing output with
  | nil => exact String.append_empty.symm
  | cons line rest ih =>
    rw [List.map_cons, String.join_cons, ← String.append_assoc, ← h.text_printLine]
    exact ih (h.printLine line)

private theorem captured_printAll (text : String) (lines : List String) :
    ((buffer text).printAll lines).captured = ((buffer text).printAll lines).text := by
  induction lines generalizing text with
  | nil => rfl
  | cons line rest ih => exact ih _

/-- What gets through is what an empty buffer captures. -/
theorem Working.text_printAll_eq_captured (h : output.Working) (lines : List String) :
    (output.printAll lines).text = output.text ++ ((buffer "").printAll lines).captured := by
  have hbuffer : (buffer "").Working := trivial
  rw [h.text_printAll, captured_printAll, hbuffer.text_printAll]
  exact congrArg (output.text ++ ·) String.empty_append.symm

/-- A buffer has all lines that were printed to it, each closed by a newline. -/
theorem printAll_buffer (text : String) (lines : List String) :
    (buffer text).printAll lines = buffer (text ++ String.join (lines.map (· ++ "\n"))) := by
  induction lines generalizing text with
  | nil => exact congrArg buffer String.append_empty.symm
  | cons line rest ih =>
    rw [List.map_cons, String.join_cons, ← String.append_assoc, ← String.append_assoc]
    exact ih _

/-- After the text that was there come some lines, each closed by a newline. A buffer has all of it,
and a device has sent it if it accepts every write. -/
structure Appends (before : Output) (lines : List String) (after : Output) : Prop where
  captured : ∀ text, before = .buffer text →
    after = .buffer (text ++ String.join (lines.map (· ++ "\n")))
  sent : before.Working → after.text = before.text ++ String.join (lines.map (· ++ "\n"))

theorem appends_printAll (output : Output) (lines : List String) :
    output.Appends lines (output.printAll lines) where
  captured := by
    rintro text rfl
    exact printAll_buffer text lines
  sent h := h.text_printAll lines

end Output

namespace Machine

/-- The machine in a new block. -/
def entered (m : Machine) : Machine :=
  let (current, environment) := m.environment.push m.current
  { m with environment, current }

mutual

def printed (m : Machine) : Stmt → List Value
  | .print expression =>
    match value expression m with
    | .ok v _ => [v]
    | .error _ _ => []
  | .evaluate _ => []
  | .declare _ _ => []
  | .block body => m.entered.printedAll body

/-- The values of the print statements that complete when a machine runs a program, in the order of
execution. -/
def printedAll (m : Machine) : List Stmt → List Value
  | [] => []
  | first :: rest =>
    m.printed first ++
      match execute first m with
      | .ok _ next => next.printedAll rest
      | .error _ _ => []

end

section Outputs
variable {m : Machine}

/-- Evaluating an expression leaves the output alone. -/
theorem value_output (m : Machine) (e : Expr) : ((value e).final m).output = m.output := by
  rw [Run.final, value]
  cases e.evaluate m.current m.environment <;> rfl

private theorem value_bind_output {e : Expr} {f : Value → Run Machine Unit}
    (hf : ∀ v next, ((f v).final next).output = next.output) :
    ((value e >>= f).final m).output = m.output := by
  have hvalue := value_output m e
  rw [Run.final_bind]
  cases hreply : value e m with
  | ok v next =>
    rw [Run.final_of_ok hreply] at hvalue
    exact (hf v next).trans hvalue
  | error abort next => rwa [Run.final_of_error hreply] at hvalue

private theorem define_output (m : Machine) (name : String) (v : Value) :
    ((define name v).final m).output = m.output := by
  rw [Run.final, define, Run.change]
  cases m.environment.define m.current name v <;> rfl

/-- Leaving a scope keeps what was printed in it. -/
private theorem inNewScope_output (m : Machine) (body : Run Machine Unit) :
    ((inNewScope body).final m).output = (body.final m.entered).output := by
  have hbody : inNewScope body m = match body m.entered with
      | .ok _ inside => .ok () { inside with
          environment := inside.environment.release (m.environment.push m.current).1,
          current := m.current }
      | .error a inside => .error a { inside with
          environment := inside.environment.release (m.environment.push m.current).1,
          current := m.current } := rfl
  rw [Run.final, Run.final, hbody]
  cases body m.entered <;> rfl

end Outputs

mutual

/-- Each line printed is for a print statement that completes. -/
theorem execute_output (m : Machine) : ∀ s : Stmt,
    ((execute s).final m).output = m.output.printAll ((m.printed s).map Value.display)
  | .evaluate e => by
    rw [execute]
    exact value_bind_output fun _ _ => rfl
  | .print e => by
    have hvalue := value_output m e
    rw [execute, Run.final_bind, printed]
    cases hreply : value e m with
    | ok v next =>
      rw [Run.final_of_ok hreply] at hvalue
      exact congrArg (Output.printLine v.display) hvalue
    | error abort next => rwa [Run.final_of_error hreply] at hvalue
  | .declare name none => define_output m name.lexeme .nil
  | .declare name (some initial) => by
    rw [execute]
    exact value_bind_output fun v next => define_output next name.lexeme v
  | .block body => by
    rw [execute, inNewScope_output, executeAll_output m.entered body]
    rfl

theorem executeAll_output (m : Machine) : ∀ program : List Stmt,
    ((executeAll program).final m).output =
      m.output.printAll ((m.printedAll program).map Value.display)
  | [] => rfl
  | first :: rest => by
    have hfirst := execute_output m first
    rw [executeAll, Run.final_bind, printedAll, List.map_append, Output.printAll_append]
    cases hreply : execute first m with
    | ok done next =>
      rw [← hfirst, Run.final_of_ok hreply]
      exact executeAll_output next rest
    | error abort next => rwa [Run.final_of_error hreply] at hfirst

end

end Machine
end BlockScript
