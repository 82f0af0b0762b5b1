import BlockScript.Evaluation.Machine
import BlockScript.Proofs.Evaluation.BigStep

/-!
The machine on linked scopes follows the semantics over a stack of finite maps. As long as it
executes in the newest scope of a nest, each of its steps is a step on the stack and ends in the
same scope, stopped or not.
-/
namespace BlockScript

namespace Run
variable {σ α β : Type}

/-- The result of a run that ends in a state, stopped by nothing but an error of the program. -/
def reply (result : Except RuntimeError α) (s : σ) : EStateM.Result Abort σ α :=
  match result with
  | .ok a => .ok a s
  | .error error => .error (.runtime error) s

theorem bind_of_ok {x : Run σ α} {s next : σ} {a : α} (h : x s = reply (.ok a) next)
    (f : α → Run σ β) : (x >>= f) s = f a next := by
  change EStateM.bind x f s = f a next
  rw [EStateM.bind, h]
  rfl

theorem bind_of_error {x : Run σ α} {s next : σ} {error : RuntimeError}
    (h : x s = reply (.error error) next) (f : α → Run σ β) :
    (x >>= f) s = reply (.error error) next := by
  change EStateM.bind x f s = _
  rw [EStateM.bind, h]
  rfl

theorem blame_eq_reply (token : Token) (result : Except TypeFault α) (s : σ) :
    blame token result s = reply (result.mapError (RuntimeError.type · token)) s := by
  cases result <;> rfl

end Run

/-- Evaluating an expression in the newest scope is an evaluation over the stack, and stays in
that scope. -/
theorem Expr.evaluate_simulates (e : Expr) {env : Environment} {here : ScopeId}
    (h : env.Innermost here) : ∃ result after,
      e.evaluate here env = Run.reply result after ∧ after.Innermost here ∧
        Evaluates env.frames e result after.frames := by
  induction e generalizing env with
  | literal value => exact ⟨.ok value, env, rfl, h, .literal⟩
  | name token =>
    obtain ⟨value, got, bound⟩ | ⟨got, unbound⟩ := h.get token
    · refine ⟨.ok value, env, ?_, h, .name bound⟩
      rw [Expr.evaluate, Run.ask, got]
      rfl
    · refine ⟨.error (.undefinedVariable token), env, ?_, h, .nameUnbound unbound⟩
      rw [Expr.evaluate, Run.ask, got]
      rfl
  | group inner ih =>
    obtain ⟨result, after, replied, innermost, evaluated⟩ := ih h
    exact ⟨result, after, replied, innermost, .group evaluated⟩
  | unary operator operand ih =>
    obtain ⟨result, after, replied, innermost, evaluated⟩ := ih h
    cases result with
    | ok value =>
      refine ⟨_, after, ?_, innermost, .unary evaluated⟩
      rw [Expr.evaluate, Run.bind_of_ok replied, Run.blame_eq_reply]
    | error error =>
      exact ⟨.error error, after, Run.bind_of_error replied _, innermost, .unaryStopped evaluated⟩
  | binary left operator right ihLeft ihRight =>
    obtain ⟨result, middle, repliedLeft, innermostLeft, evaluatedLeft⟩ := ihLeft h
    cases result with
    | error error =>
      exact ⟨.error error, middle, Run.bind_of_error repliedLeft _, innermostLeft,
        .leftStopped evaluatedLeft⟩
    | ok first =>
      obtain ⟨result, after, repliedRight, innermost, evaluatedRight⟩ := ihRight innermostLeft
      cases result with
      | error error =>
        refine ⟨.error error, after, ?_, innermost, .rightStopped evaluatedLeft evaluatedRight⟩
        rw [Expr.evaluate, Run.bind_of_ok repliedLeft, Run.bind_of_error repliedRight]
      | ok second =>
        refine ⟨_, after, ?_, innermost, .binary evaluatedLeft evaluatedRight⟩
        rw [Expr.evaluate, Run.bind_of_ok repliedLeft, Run.bind_of_ok repliedRight,
          Run.blame_eq_reply]
  | assign target source ih =>
    obtain ⟨result, middle, replied, innermost, evaluated⟩ := ih h
    cases result with
    | error error =>
      exact ⟨.error error, middle, Run.bind_of_error replied _, innermost,
        .assignStopped evaluated⟩
    | ok value =>
      obtain ⟨after, assigned, innermostAfter, bound⟩ | ⟨failed, unbound⟩ :=
        innermost.assign target value
      · have changed : Run.change (·.assign here target value) middle =
            Run.reply (.ok ()) after := by
          rw [Run.change, assigned]
          rfl
        refine ⟨.ok value, after, ?_, innermostAfter, .assign evaluated bound⟩
        rw [Expr.evaluate, Run.bind_of_ok replied, Run.bind_of_ok changed]
        rfl
      · have unchanged : Run.change (·.assign here target value) middle =
            Run.reply (.error (.undefinedVariable target)) middle := by
          rw [Run.change, failed]
          rfl
        refine ⟨.error (.undefinedVariable target), middle, ?_, innermost,
          .assignUnbound evaluated unbound⟩
        rw [Expr.evaluate, Run.bind_of_ok replied, Run.bind_of_error unchanged]

/-- Prints lines in order. -/
def Output.printAll (output : Output) (lines : List String) : Output :=
  lines.foldl (fun shown line => shown.printLine line) output

theorem Output.printAll_append (output : Output) (lines more : List String) :
    output.printAll (lines ++ more) = (output.printAll lines).printAll more :=
  List.foldl_append

namespace Machine

/-- The stack of finite maps that a machine stands for. -/
def frames (m : Machine) : Frames := m.environment.frames

/-- The machine executes in the newest scope of a nest. -/
def Formed (m : Machine) : Prop := m.environment.Innermost m.current

/-- A machine further on in the same scope, with more lines printed. -/
structure Continues (m : Machine) (lines : List String) (next : Machine) : Prop where
  formed : next.Formed
  current : next.current = m.current
  output : next.output = m.output.printAll lines

theorem Continues.refl {m : Machine} (h : m.Formed) : m.Continues [] m := ⟨h, rfl, rfl⟩

theorem Continues.trans {m middle last : Machine} {lines more : List String}
    (h : m.Continues lines middle) (h' : middle.Continues more last) :
    m.Continues (lines ++ more) last where
  formed := h'.formed
  current := h'.current.trans h.current
  output := by rw [h'.output, h.output, Output.printAll_append]

/-- The result of a statement that an error may have stopped. -/
def halt (error : Option RuntimeError) (next : Machine) : EStateM.Result Abort Machine Unit :=
  Run.reply (error.elim (.ok ()) .error) next

/-- A run of a machine ends as a semantics over the stack says. -/
def Follows (m : Machine) (run : Run Machine Unit)
    (semantics : List String → Option RuntimeError → Frames → Prop) : Prop :=
  ∃ lines error next,
    run m = halt error next ∧ m.Continues lines next ∧ semantics lines error next.frames

section Steps
variable {m : Machine}

theorem value_simulates (h : m.Formed) (e : Expr) : ∃ result next,
    value e m = Run.reply result next ∧ m.Continues [] next ∧
      Evaluates m.frames e result next.frames := by
  obtain ⟨result, environment, replied, innermost, evaluated⟩ := e.evaluate_simulates h
  refine ⟨result, { m with environment }, ?_, ⟨innermost, rfl, rfl⟩, evaluated⟩
  rw [value, replied]
  cases result <;> rfl

private theorem define_simulates (h : m.Formed) (name : String) (v : Value) : ∃ next top below,
    define name v m = halt none next ∧ m.Continues [] next ∧
      m.frames = top :: below ∧ next.frames = Finmap.insert name v top :: below := by
  obtain ⟨environment, top, below, defined, innermost, before, after⟩ :=
    Environment.Innermost.define h name v
  refine ⟨{ m with environment }, top, below, ?_, ⟨innermost, rfl, rfl⟩, before, after⟩
  rw [define, Run.change, defined]
  rfl

/-- A run in a new scope drops the map it was given, however it ends. -/
private theorem inNewScope_follows (h : m.Formed) {body : Run Machine Unit}
    {semantics : List String → Option RuntimeError → Frames → Prop}
    (inside : ∀ entered : Machine, entered.Formed → entered.frames = ∅ :: m.frames →
      entered.Follows body semantics) :
    m.Follows (inNewScope body)
      fun lines error σ => ∃ top, semantics lines error (top :: σ) := by
  obtain ⟨environment, pushed, innermost, framed⟩ := Environment.Innermost.push h
  obtain ⟨lines, error, last, ended, continued, executed⟩ :=
    inside ⟨environment, m.current + 1, m.output⟩ innermost framed
  have innermostLast : last.environment.Innermost (m.current + 1) := by
    have formed := continued.formed
    rwa [Formed, continued.current] at formed
  obtain ⟨released, top, dropped⟩ := innermostLast.release
  refine ⟨lines, error, ⟨last.environment.release (m.current + 1), m.current, last.output⟩, ?_,
    ⟨released, rfl, continued.output⟩, top, ?_⟩
  · simp only [inNewScope, pushed, ended]
    cases error <;> rfl
  · change semantics lines error (top :: (last.environment.release (m.current + 1)).frames)
    rw [← dropped]
    exact executed

end Steps

mutual

/-- A statement is executed as over the stack. -/
theorem execute_follows {m : Machine} (h : m.Formed) :
    ∀ s : Stmt, m.Follows (execute s) (Executes m.frames s)
  | .evaluate e => by
    obtain ⟨result, next, replied, continues, evaluated⟩ := value_simulates h e
    cases result with
    | ok v => exact ⟨[], none, next, Run.bind_of_ok replied _, continues, .evaluate evaluated⟩
    | error error =>
      exact ⟨[], some error, next, Run.bind_of_error replied _, continues,
        .evaluateStopped evaluated⟩
  | .print e => by
    obtain ⟨result, next, replied, continues, evaluated⟩ := value_simulates h e
    cases result with
    | ok v =>
      let shown : Machine := { next with output := next.output.printLine v.display }
      have printed : next.Continues [v.display] shown := ⟨continues.formed, rfl, rfl⟩
      exact ⟨[v.display], none, shown, Run.bind_of_ok replied _, continues.trans printed,
        .print evaluated⟩
    | error error =>
      exact ⟨[], some error, next, Run.bind_of_error replied _, continues, .printStopped evaluated⟩
  | .declare name none => by
    obtain ⟨next, top, below, defined, continues, before, after⟩ :=
      define_simulates h name.lexeme .nil
    refine ⟨[], none, next, defined, continues, ?_⟩
    rw [before, after]
    exact .declareNil
  | .declare name (some initial) => by
    obtain ⟨result, middle, replied, continues, evaluated⟩ := value_simulates h initial
    cases result with
    | ok v =>
      obtain ⟨next, top, below, defined, continues', before, after⟩ :=
        define_simulates continues.formed name.lexeme v
      refine ⟨[], none, next, ?_, continues.trans continues', ?_⟩
      · rw [execute, Run.bind_of_ok replied, defined]
      · rw [before] at evaluated
        rw [after]
        exact .declare evaluated
    | error error =>
      exact ⟨[], some error, middle, Run.bind_of_error replied _, continues,
        .declareStopped evaluated⟩
  | .block body => by
    obtain ⟨lines, error, next, ended, continues, top, executed⟩ :=
      inNewScope_follows h fun entered formed pushed => pushed ▸ executeAll_follows formed body
    exact ⟨lines, error, next, ended, continues, .block executed⟩

/-- A program is executed as over the stack. -/
theorem executeAll_follows {m : Machine} (h : m.Formed) :
    ∀ program : List Stmt, m.Follows (executeAll program) (ExecutesAll m.frames program)
  | [] => ⟨[], none, m, rfl, .refl h, .done⟩
  | first :: rest => by
    obtain ⟨lines, error, middle, ended, continues, executed⟩ := execute_follows h first
    cases error with
    | some error =>
      exact ⟨lines, some error, middle, Run.bind_of_error ended _, continues, .stopped executed⟩
    | none =>
      obtain ⟨more, error, last, endedRest, continuesRest, executedRest⟩ :=
        executeAll_follows continues.formed rest
      refine ⟨lines ++ more, error, last, ?_, continues.trans continuesRest,
        .next executed executedRest⟩
      rw [executeAll, Run.bind_of_ok ended, endedRest]

end

end Machine
end BlockScript
