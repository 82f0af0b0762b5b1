import BlockScript.Proofs.Evaluation.Effects
import BlockScript.Proofs.Evaluation.Printing
import BlockScript.Proofs.Session.Reports

/-!
What a program may do to a machine. Stopped or not, it binds the names of its own declarations that
completed, changes no values but those of declared names and of targets, and adds to the output what
its completed print statements show.
-/
namespace BlockScript

namespace Machine

/-- A statement of a program completes: the statements up to it are executed, and nothing stops
them. -/
def Completes (m : Machine) (program : List Stmt) (s : Stmt) : Prop :=
  ∃ before after, program = before ++ s :: after ∧ (m.interpret (before ++ [s])).2 = none

/-- The names that the completed statements of a program declare. -/
def declaredBy (m : Machine) (program : List Stmt) : Set String :=
  {name | ∃ t initial, m.Completes program (.declare t initial) ∧ t.lexeme = name}

section Completion
variable {m next : Machine} {first s : Stmt} {rest : List Stmt}

private theorem not_completes_nil : ¬ m.Completes [] s := by
  rintro ⟨before, after, hsplit, -⟩
  simp at hsplit

private theorem not_completes_of_error {abort : Abort} (h : execute first m = .error abort next) :
    ¬ m.Completes (first :: rest) s := by
  rintro ⟨before, after, hsplit, hrun⟩
  cases before with
  | nil =>
    cases hsplit
    rw [List.nil_append, interpret_cons, h] at hrun
    cases hrun
  | cons t more =>
    cases hsplit
    rw [List.cons_append, interpret_cons, h] at hrun
    cases hrun

theorem completes_cons_iff (h : execute first m = .ok () next) :
    m.Completes (first :: rest) s ↔ s = first ∨ next.Completes rest s := by
  constructor
  · rintro ⟨before, after, hsplit, hrun⟩
    cases before with
    | nil =>
      cases hsplit
      exact .inl rfl
    | cons t more =>
      cases hsplit
      rw [List.cons_append, interpret_cons, h] at hrun
      exact .inr ⟨more, after, rfl, hrun⟩
  · rintro (rfl | ⟨before, after, rfl, hrun⟩)
    · refine ⟨[], rest, rfl, ?_⟩
      rw [List.nil_append, interpret_cons, h]
      rfl
    · refine ⟨first :: before, after, rfl, ?_⟩
      rw [List.cons_append, interpret_cons, h]
      exact hrun

private theorem declaredBy_nil : m.declaredBy [] = ∅ := by
  simp [declaredBy, not_completes_nil]

private theorem declaredBy_of_error {abort : Abort} (h : execute first m = .error abort next) :
    m.declaredBy (first :: rest) = ∅ := by
  simp [declaredBy, not_completes_of_error h]

private theorem declaredBy_cons (h : execute first m = .ok () next) :
    m.declaredBy (first :: rest) = first.declared none ∪ next.declaredBy rest := by
  ext name
  simp only [declaredBy, Stmt.declared, Set.mem_ofPred_eq, Set.mem_union, completes_cons_iff h,
    true_and]
  constructor
  · rintro ⟨t, initial, hs | hrest, hname⟩
    · exact .inl ⟨t, initial, hs.symm, hname⟩
    · exact .inr ⟨t, initial, hrest, hname⟩
  · rintro (⟨t, initial, hs, hname⟩ | ⟨t, initial, hrest, hname⟩)
    · exact ⟨t, initial, .inl hs.symm, hname⟩
    · exact ⟨t, initial, .inr hrest, hname⟩

end Completion

namespace AtRest
variable {m : Machine} {T : Set String}

/-- A program changes the globals as its completed declarations and its targets say. -/
private theorem changes (h : m.AtRest) (program : List Stmt)
    (hT : ∀ name ∈ Stmt.allTargets program, name ∈ T) :
    Frame.ChangedBy T (m.declaredBy program) m.globals (m.interpret program).1.globals := by
  induction program generalizing m with
  | nil =>
    rw [declaredBy_nil]
    exact .refl _
  | cons first rest ih =>
    obtain ⟨lines, error, next, ended, continued, executed⟩ := execute_follows h.formed first
    obtain ⟨hfirst, hrest⟩ := List.forall_mem_append.mp hT
    have rested := h.continues continued
    rw [h.frames_eq, rested.frames_eq] at executed
    have hchanged := (executed.changes hfirst).top
    rw [interpret_cons, ended]
    cases error with
    | some error =>
      rw [Stmt.declared_of_stopped] at hchanged
      rw [declaredBy_of_error ended]
      exact hchanged
    | none =>
      rw [declaredBy_cons ended]
      exact hchanged.trans (ih rested hrest)

private theorem evaluate_changes (h : m.AtRest) (e : Expr) (hT : ∀ name ∈ e.targets, name ∈ T) :
    Frame.ChangedBy T ∅ m.globals (m.evaluate e).1.globals := by
  obtain ⟨result, next, replied, continued, evaluated⟩ := value_simulates h.formed e
  have answered : (m.evaluate e).1 = next := by
    rw [Machine.evaluate, replied]
    cases result <;> rfl
  have rested := h.continues continued
  rw [h.frames_eq, rested.frames_eq] at evaluated
  rw [answered]
  exact (evaluated.changes hT).top

end AtRest

theorem interpret_output (m : Machine) (program : List Stmt) :
    (m.interpret program).1.output =
      m.output.printAll ((m.printedAll program).map Value.display) := by
  rw [← executeAll_output, interpret, Run.final]
  cases executeAll program m <;> rfl

theorem evaluate_output (m : Machine) (e : Expr) : (m.evaluate e).1.output = m.output := by
  rw [← value_output m e, evaluate, Run.final]
  cases value e m <;> rfl

/-- The effects of a program are confined. A machine at rest has, after a program, the globals it
had and those that the completed statements of the program declare; any other global that the
program does not assign to has its value; and the output has in addition a line for each value that
the program prints. An expression declares and prints nothing. -/
theorem effects_confined {m : Machine} (h : m.AtRest) :
    (∀ program,
      (∀ name, name ∈ (m.interpret program).1.globals ↔ name ∈ m.globals ∨
        ∃ t initial, m.Completes program (.declare t initial) ∧ t.lexeme = name) ∧
      (∀ name, (∀ t initial, m.Completes program (.declare t initial) → t.lexeme ≠ name) →
        name ∉ Stmt.allTargets program →
          Finmap.lookup name (m.interpret program).1.globals = Finmap.lookup name m.globals) ∧
      (m.interpret program).1.output =
        m.output.printAll ((m.printedAll program).map Value.display) ∧
      ∀ text, m.output = .buffer text → (m.interpret program).1.output =
        .buffer (text ++ String.join ((m.printedAll program).map (·.display ++ "\n")))) ∧
    ∀ e,
      (∀ name, name ∈ (m.evaluate e).1.globals ↔ name ∈ m.globals) ∧
      (∀ name ∉ e.targets,
        Finmap.lookup name (m.evaluate e).1.globals = Finmap.lookup name m.globals) ∧
      (m.evaluate e).1.output = m.output := by
  constructor
  · intro program
    have hchanged := h.changes program (T := {name | name ∈ Stmt.allTargets program})
      fun _ hname => hname
    have houtput := m.interpret_output program
    refine ⟨hchanged.mem_iff, fun name hdeclared htarget => ?_, houtput, fun text htext => ?_⟩
    · refine hchanged.lookup_eq ?_ htarget
      rintro ⟨t, initial, hcompletes, hname⟩
      exact hdeclared t initial hcompletes hname
    · rw [houtput, htext, Output.printAll_buffer, List.map_map]
      rfl
  · intro e
    have hchanged := h.evaluate_changes e (T := {name | name ∈ e.targets}) fun _ hname => hname
    refine ⟨fun name => ?_, fun name htarget => ?_, m.evaluate_output e⟩
    · simpa using hchanged.mem_iff name
    · exact hchanged.lookup_eq (Set.notMem_empty name) htarget

/-- A block hides a name, changes a global and fails; what follows is not reached. -/
theorem effects_confined_stopped :
    let a : Token := ⟨.identifier, "a", .nil, 1⟩
    let b : Token := ⟨.identifier, "b", .nil, 1⟩
    let c : Token := ⟨.identifier, "c", .nil, 1⟩
    let block : Stmt := .block [.declare c (some (.name a)),
      .evaluate (.assign a (.literal .nil)), .print (.name c), .print (.name b)]
    let program := [.declare a (some (.literal (.string "v"))), block, .declare b none]
    let m : Machine := ⟨⟨[⟨[("d", .string "w")], none⟩]⟩, .global, .buffer "w\n"⟩
    m.AtRest ∧ (m.interpret program).2 = some (.runtime (.undefinedVariable b)) ∧
      (∀ name, name ∈ (m.interpret program).1.globals ↔ name = "a" ∨ name = "d") ∧
      Finmap.lookup "d" (m.interpret program).1.globals = some (.string "w") ∧
      (m.interpret program).1.output = .buffer "w\nv\n" ∧
      (m.evaluate (.assign a (.literal .nil))).1.output = .buffer "w\n" := by
  intro a b c block program m
  have hrest : m.AtRest := ⟨⟨.global _, rfl⟩, rfl⟩
  obtain ⟨hprogram, hexpression⟩ := effects_confined hrest
  obtain ⟨hbound, hkept, -, houtput⟩ := hprogram program
  have hdeclare : execute (.declare a (some (.literal (.string "v")))) m = .ok ()
      ⟨⟨[⟨[("d", .string "w"), ("a", .string "v")], none⟩]⟩, .global, .buffer "w\n"⟩ := rfl
  have hcompletes : ∀ s, m.Completes program s ↔
      s = .declare a (some (.literal (.string "v"))) := by
    intro s
    rw [completes_cons_iff hdeclare]
    exact or_iff_left (not_completes_of_error rfl)
  have hglobals : m.globals = Finmap.insert "d" (.string "w") ∅ := rfl
  refine ⟨hrest, rfl, fun name => ?_, ?_, houtput _ rfl, (hexpression _).2.2⟩
  · rw [hbound, hglobals, Finmap.mem_insert]
    simp [hcompletes, a, Finmap.notMem_empty, or_comm, eq_comm]
  · rw [hkept "d" (by simp [hcompletes, a]) (by decide), hglobals, Finmap.lookup_insert]

end Machine
end BlockScript
