import BlockScript.Proofs.Evaluation.Links
import BlockScript.Proofs.Session.Calls

/-!
Scopes are restored on every exit. Where the links of a machine lead downwards, a statement ends in
the scope it started in and with the scopes it started with, so that whatever a host asks of a new
machine, it finds the machine in the global scope with no other scope left.
-/
namespace BlockScript.Machine

/-- Links lead downwards and the current scope is live. -/
structure WellFormed (m : Machine) : Prop where
  linked : Linked m.environment.links
  live : m.current < m.environment.depth

variable {m : Machine}

private theorem WellFormed.live_links (h : m.WellFormed) :
    m.current < m.environment.links.length := by
  rw [m.environment.length_links]
  exact h.live

private theorem WellFormed.within (h : m.WellFormed) {next : Machine}
    (hn : next.Within m.environment.links m.current) : next.WellFormed where
  linked := hn.links_eq ▸ h.linked
  live := by
    rw [← next.environment.length_links, hn.links_eq, hn.current_eq]
    exact h.live_links

theorem wellFormed_new (output : Output) : (new output).WellFormed := ⟨.new, Nat.zero_lt_one⟩

/-- A program ends where it started, stopped by nothing but one of its errors. -/
theorem WellFormed.interpret (h : m.WellFormed) (program : List Stmt) : ∃ error next,
    m.interpret program = (next, Option.map Abort.runtime error) ∧
      next.Within m.environment.links m.current := by
  obtain ⟨result, next, replied, hn⟩ :=
    executeAll_endsIn h.linked h.live_links ⟨rfl, rfl⟩ program
  rw [Machine.interpret, replied]
  cases result with
  | ok => exact ⟨none, next, rfl, hn⟩
  | error error => exact ⟨some error, next, rfl, hn⟩

theorem WellFormed.evaluate (h : m.WellFormed) (e : Expr) :
    (m.evaluate e).1.Within m.environment.links m.current := by
  obtain ⟨result, next, replied, hn⟩ := value_endsIn h.linked h.live_links ⟨rfl, rfl⟩ e
  rw [Machine.evaluate, replied]
  cases result <;> exact hn

/-- Whatever is asked of a machine, its scopes are restored. -/
theorem WellFormed.perform (h : m.WellFormed) (call : Call) :
    (m.perform call).Within m.environment.links m.current := by
  have interpreted : ∀ program, (m.interpret program).1.Within m.environment.links m.current := by
    intro program
    obtain ⟨error, next, answered, hn⟩ := h.interpret program
    rwa [answered]
  cases call with
  | run source =>
    change (m.run source).1.Within m.environment.links m.current
    by_cases hr : ∃ program, Source.Reads source program
    · obtain ⟨program, reads⟩ := hr
      rw [run_of_reads reads]
      exact interpreted program
    · rw [run_fst_of_not_reads hr]
      exact ⟨rfl, rfl⟩
  | interpret program => exact interpreted program
  | evaluate e => exact h.evaluate e
  | clearOutput => exact ⟨rfl, rfl⟩

private theorem WellFormed.foldl_perform (h : m.WellFormed) (calls : List Call) :
    (calls.foldl Machine.perform m).Within m.environment.links m.current := by
  induction calls generalizing m with
  | nil => exact ⟨rfl, rfl⟩
  | cons call rest ih =>
    have hc := h.perform call
    have hrest := ih (h.within hc)
    rwa [hc.links_eq, hc.current_eq] at hrest

/-- Restoration. From every well-formed machine each statement ends, stopped by an error of the
program or by nothing, in the same scope and with the same scopes and links; so any calls leave a
new machine in its global scope, which is then the only one. -/
theorem scopes_restored :
    (∀ m : Machine, m.WellFormed → ∀ s : Stmt, ∃ error next, execute s m = halt error next ∧
      next.current = m.current ∧ next.environment.depth = m.environment.depth ∧
        next.environment.links = m.environment.links) ∧
    ∀ (output : Output) (calls : List Call), (after output calls).environment.depth = 1 ∧
      (after output calls).current = ScopeId.global := by
  constructor
  · intro m h s
    obtain ⟨result, next, replied, hn⟩ := execute_endsIn h.linked h.live_links ⟨rfl, rfl⟩ s
    have hdepth : next.environment.depth = m.environment.depth := by
      rw [← Environment.length_links, hn.links_eq, Environment.length_links]
    cases result with
    | ok => exact ⟨none, next, replied, hn.current_eq, hdepth, hn.links_eq⟩
    | error error => exact ⟨some error, next, replied, hn.current_eq, hdepth, hn.links_eq⟩
  · intro output calls
    have hn := (wellFormed_new output).foldl_perform calls
    refine ⟨?_, hn.current_eq⟩
    rw [← Environment.length_links, after, hn.links_eq]
    rfl

/-- An unbound name in a block of a block, in a machine whose current scope is not the newest. -/
theorem scopes_restored_unbound :
    let name : Token := ⟨.identifier, "a", .nil, 1⟩
    let other : Token := ⟨.identifier, "b", .nil, 1⟩
    let m : Machine :=
      ⟨⟨[⟨[], some 0⟩, ⟨[], some 0⟩, ⟨[], none⟩]⟩, 1, .buffer ""⟩
    m.WellFormed ∧ ∃ error next,
      execute (.block [.declare other none, .block [.print (.name name), .block []]]) m =
        halt error next ∧
      next.current = 1 ∧ next.environment.depth = 3 ∧
        next.environment.links = [none, some 0, some 0] := by
  intro name other m
  have h : m.WellFormed := by
    refine ⟨⟨rfl, ?_⟩, by decide⟩
    intro id link hid hl
    match id with
    | 0 => exact absurd rfl hid
    | 1 => exact ⟨0, by decide, (Option.some.inj hl).symm⟩
    | 2 => exact ⟨0, by decide, (Option.some.inj hl).symm⟩
    | id + 3 => cases hl
  exact ⟨h, scopes_restored.1 m h _⟩

end BlockScript.Machine
