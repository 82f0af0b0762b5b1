import BlockScript.Proofs.Session.Restoration

/-!
What a run reports. A source with a static error reports all its static errors and leaves the
machine alone; any other source reports nothing, or what stopped its first failing statement.
-/
namespace BlockScript

namespace Program

/-- The errors that keep a token list from being a program. -/
def syntaxErrors (tokens : List Token) : List SyntaxError :=
  match ofTokens tokens with
  | .ok _ => []
  | .error errors => errors

/-- A token list that is no program has an error. -/
theorem ne_nil_of_ofTokens_eq_error {tokens : List Token} {errors : List SyntaxError}
    (h : ofTokens tokens = .error errors) : errors ≠ [] := by
  rintro rfl
  unfold ofTokens at h
  rcases hr : statementsOf (lastToken tokens) tokens with ⟨_ | ⟨first, others⟩, rest, e | program⟩
  all_goals simp [hr] at h

end Program

namespace Source

/-- The static errors of a source: the lexical ones, which have no location, and then those of its
tokens. -/
def staticErrors (source : String) : List Diagnostic :=
  ((scan source).errors.map fun e => ⟨e.line, "", e.fault.message⟩) ++
    (Program.syntaxErrors (scan source).tokens).map fun e =>
      ⟨e.token.line, e.token.location, e.fault.message⟩

/-- Scanning or parsing the source finds an error. -/
def Faulty (source : String) : Prop :=
  (scan source).errors ≠ [] ∨ ∃ errors, Program.ofTokens (scan source).tokens = .error errors

variable {source : String}

theorem Faulty.staticErrors_ne_nil (h : Faulty source) : staticErrors source ≠ [] := by
  intro hnil
  obtain ⟨hlexical, hsyntax⟩ := List.append_eq_nil_iff.mp hnil
  rcases h with hscan | ⟨errors, hparse⟩
  · exact hscan (List.map_eq_nil_iff.mp hlexical)
  · rw [Program.syntaxErrors, hparse] at hsyntax
    exact Program.ne_nil_of_ofTokens_eq_error hparse (List.map_eq_nil_iff.mp hsyntax)

theorem faulty_or_reads (source : String) : Faulty source ∨ ∃ program, Reads source program := by
  by_cases hscan : (scan source).errors = []
  · cases hparse : Program.ofTokens (scan source).tokens with
    | error errors => exact .inl (.inr ⟨errors, hparse⟩)
    | ok program => exact .inr ⟨program, hscan, hparse⟩
  · exact .inl (.inl hscan)

theorem Reads.not_faulty {program : List Stmt} (h : Reads source program) : ¬ Faulty source := by
  rintro (hscan | ⟨errors, hparse⟩)
  · exact hscan h.scanned
  · rw [h.parsed] at hparse
    cases hparse

end Source

namespace Machine
variable {m next : Machine} {source : String} {program : List Stmt} {abort : Abort}

/-- A source with a static error reports all of them and does nothing else. -/
theorem run_of_faulty (h : Source.Faulty source) (m : Machine) :
    m.run source = (m, (Source.staticErrors source).map Event.static) := by
  rw [run, Source.staticErrors, Program.syntaxErrors, List.map_append, List.map_map]
  rcases h with hscan | ⟨errors, hparse⟩
  · cases hparse : Program.ofTokens (Source.scan source).tokens with
    | ok program =>
      simp only [if_neg hscan, List.map_nil, List.append_nil]
      rfl
    | error errors =>
      simp only [List.map_map]
      rfl
  · simp only [hparse, List.map_map]
    rfl

theorem interpret_cons (m : Machine) (first : Stmt) (rest : List Stmt) :
    m.interpret (first :: rest) =
      match execute first m with
      | .ok _ next => next.interpret rest
      | .error abort next => (next, some abort) := by
  have hbind : executeAll (first :: rest) m =
      EStateM.bind (execute first) (fun _ => executeAll rest) m := by
    rw [executeAll]
    rfl
  rw [interpret, hbind, EStateM.bind]
  cases execute first m <;> rfl

/-- A program that was stopped has a first statement that failed, after others that did not. -/
theorem exists_stopped_statement (h : m.interpret program = (next, some abort)) :
    ∃ before s after middle, program = before ++ s :: after ∧
      m.interpret before = (middle, none) ∧ execute s middle = .error abort next := by
  induction program generalizing m with
  | nil => cases h
  | cons first rest ih =>
    rw [interpret_cons] at h
    cases hfirst : execute first m with
    | error stopped last =>
      rw [hfirst] at h
      cases h
      exact ⟨[], first, rest, m, rfl, rfl, hfirst⟩
    | ok done middle =>
      rw [hfirst] at h
      obtain ⟨before, s, after, last, rfl, hbefore, hs⟩ := ih h
      refine ⟨first :: before, s, after, last, rfl, ?_, hs⟩
      rw [interpret_cons, hfirst]
      exact hbefore

/-- A source without static errors runs to its end and reports nothing, or reports what stopped its
first failing statement. -/
theorem run_of_reads_cases (h : Source.Reads source program) (m : Machine) :
    m.run source = ((m.interpret program).1, []) ∧ (m.interpret program).2 = none ∨
      ∃ before s after middle abort next, program = before ++ s :: after ∧
        m.interpret before = (middle, none) ∧ execute s middle = .error abort next ∧
        m.run source = (next, [.aborted abort]) := by
  have hrun := run_of_reads h m
  rcases hinterpret : m.interpret program with ⟨next, _ | abort⟩
  · rw [hinterpret] at hrun
    exact .inl ⟨hrun, rfl⟩
  · rw [hinterpret] at hrun
    obtain ⟨before, s, after, middle, hprogram, hbefore, hs⟩ :=
      exists_stopped_statement hinterpret
    exact .inr ⟨before, s, after, middle, abort, next, hprogram, hbefore, hs, hrun⟩

/-- A well-formed machine is stopped by nothing but an error of the program. -/
theorem WellFormed.runtime_of_aborted (h : m.WellFormed) (hreads : Source.Reads source program)
    (ha : .aborted abort ∈ (m.run source).2) : ∃ error, abort = .runtime error := by
  obtain ⟨stopped, next, hinterpret, -⟩ := h.interpret program
  rw [run_of_reads hreads, hinterpret] at ha
  cases stopped with
  | none => cases ha
  | some error =>
    cases List.mem_singleton.mp ha
    exact ⟨error, rfl⟩

end Machine
end BlockScript
