import BlockScript.Proofs.Evaluation.Simulation

/-!
Execution from any scope whose links lead downwards, whether it is the newest one or not. No
statement uses a scope that is gone, and each leaves the scopes and their links as it found them,
stopped or not.
-/
namespace BlockScript

namespace Environment

/-- The links of the live scopes, by the indices of the scopes. -/
def links (env : Environment) : List (Option ScopeId) :=
  (env.scopes.map Scope.enclosing).reverse

theorem length_links (env : Environment) : env.links.length = env.depth := by
  rw [links, List.length_reverse, List.length_map, depth]

/-- The links are the given ones. -/
def HasLinks (links : List (Option ScopeId)) (env : Environment) : Prop := env.links = links

theorem links_cons (scope : Scope) (below : List Scope) :
    links ⟨scope :: below⟩ = links ⟨below⟩ ++ [scope.enclosing] := by
  rw [links, List.map_cons, List.reverse_cons, links]

end Environment

/-- The global scope has no enclosing scope, and every other scope has one with a smaller index. -/
structure Linked (links : List (Option ScopeId)) : Prop where
  bottom : links[ScopeId.global]? = some none
  inner : ∀ id link, id ≠ ScopeId.global → links[id]? = some link → ∃ outer < id, link = some outer

namespace Linked
variable {links : List (Option ScopeId)}

theorem lt_of_link (h : Linked links) {id outer : ScopeId} (hl : links[id]? = some (some outer)) :
    outer < id := by
  by_cases hid : id = ScopeId.global
  · rw [hid, h.bottom] at hl
    cases hl
  · obtain ⟨other, hlt, hlink⟩ := h.inner id (some outer) hid hl
    cases hlink
    exact hlt

theorem length_ne_global (h : Linked links) : links.length ≠ ScopeId.global := by
  intro hlen
  have hbottom := h.bottom
  rw [List.getElem?_eq_none (Nat.le_of_eq hlen)] at hbottom
  cases hbottom

theorem new : Linked (Environment.links .empty) where
  bottom := rfl
  inner := by
    intro id link hid hl
    have hlt : id < 1 := (List.getElem?_eq_some_iff.mp hl).1
    exact absurd (Nat.lt_one_iff.mp hlt) hid

/-- A scope may be pushed inside any live scope. -/
theorem push (h : Linked links) {here : ScopeId} (hlive : here < links.length) :
    Linked (links ++ [some here]) where
  bottom := (List.getElem?_append_left (Nat.pos_of_ne_zero h.length_ne_global)).trans h.bottom
  inner := by
    intro id link hid hl
    by_cases hlt : id < links.length
    · rw [List.getElem?_append_left hlt] at hl
      exact h.inner id link hid hl
    · have hle : id < links.length + 1 := by
        simpa using (List.getElem?_eq_some_iff.mp hl).1
      obtain rfl : id = links.length :=
        Nat.le_antisymm (Nat.lt_succ_iff.mp hle) (Nat.not_lt.mp hlt)
      rw [List.getElem?_concat_length] at hl
      cases hl
      exact ⟨here, hlive, rfl⟩

/-- Any scopes but the global one may be dropped from the top. -/
theorem take (h : Linked links) {id : ScopeId} (hid : id ≠ ScopeId.global) :
    Linked (links.take id) where
  bottom := (List.getElem?_take_of_lt (Nat.pos_of_ne_zero hid)).trans h.bottom
  inner := by
    intro i link hi hl
    rw [List.getElem?_take] at hl
    obtain ⟨-, hl⟩ := Option.ite_none_right_eq_some.mp hl
    exact h.inner i link hi hl

end Linked

namespace Environment
variable {scopes : List Scope} {id : ScopeId}

/-- From a live scope the links lead to live scopes only. -/
private theorem resolveIn_live (name : String)
    (h : ∀ id outer : ScopeId, (links ⟨scopes⟩)[id]? = some (some outer) → outer < id)
    (hlive : id < scopes.length) : ∃ found, resolveIn name scopes id = .ok found ∧
      ∀ owner ∈ found, owner.1 < scopes.length := by
  induction scopes generalizing id with
  | nil => cases hlive
  | cons scope below ih =>
    rw [links_cons] at h
    have hlen : (links ⟨below⟩).length = below.length := length_links ⟨below⟩
    have hbelow : ∀ id outer : ScopeId, (links ⟨below⟩)[id]? = some (some outer) → outer < id := by
      intro id outer hl
      have hlt := (List.getElem?_eq_some_iff.mp hl).1
      exact h id outer (by rw [List.getElem?_append_left hlt, hl])
    have step : ∀ {id : ScopeId}, id < below.length → ∃ found, resolveIn name below id = .ok found ∧
        ∀ owner ∈ found, owner.1 < (scope :: below).length := by
      intro id hlt
      obtain ⟨found, hfound, howner⟩ := ih hbelow hlt
      exact ⟨found, hfound, fun owner hmem => Nat.lt_succ_of_lt (howner owner hmem)⟩
    rw [resolveIn]
    split
    · rename_i hid
      subst hid
      cases scope.bindings.find? name with
      | some value => exact ⟨_, rfl, by simp⟩
      | none =>
        cases hlink : scope.enclosing with
        | none => exact ⟨none, rfl, by simp⟩
        | some outer =>
          apply step
          apply h
          rw [hlink, ← hlen, List.getElem?_concat_length]
    · rename_i hid
      exact step (Nat.lt_of_le_of_ne (Nat.lt_succ_iff.mp hlive) hid)

/-- A live scope can be changed, which leaves the links. -/
private theorem updateIn_live (change : Bindings → Bindings) (hlive : id < scopes.length) :
    ∃ after, updateIn change scopes id = .ok after ∧ links ⟨after⟩ = links ⟨scopes⟩ := by
  induction scopes generalizing id with
  | nil => cases hlive
  | cons scope below ih =>
    rw [updateIn]
    split
    · exact ⟨_, rfl, rfl⟩
    · rename_i hid
      have hlt : id < below.length := Nat.lt_of_le_of_ne (Nat.lt_succ_iff.mp hlive) hid
      obtain ⟨after, hafter, hlinks⟩ := ih hlt
      refine ⟨scope :: after, by rw [hafter]; rfl, ?_⟩
      rw [links_cons, hlinks, links_cons]

variable {env : Environment} {here : ScopeId}

theorem resolve_live (h : Linked env.links) (hlive : here < env.depth) (name : String) :
    ∃ found, env.resolve here name = .ok found ∧ ∀ owner ∈ found, owner.1 < env.depth :=
  resolveIn_live name (fun _ _ => h.lt_of_link) hlive

theorem define_live (hlive : here < env.depth) (name : String) (value : Value) :
    ∃ after, env.define here name value = .ok after ∧ after.links = env.links := by
  obtain ⟨after, hafter, hlinks⟩ := updateIn_live (·.set name value) hlive
  exact ⟨⟨after⟩, by rw [define, hafter]; rfl, hlinks⟩

theorem get_live (h : Linked env.links) (hlive : here < env.depth) (token : Token) :
    ∃ result : Except RuntimeError Value,
      env.get here token = result.mapError Abort.runtime := by
  obtain ⟨found, hfound, -⟩ := resolve_live h hlive token.lexeme
  rw [get, hfound]
  cases found with
  | none => exact ⟨.error (.undefinedVariable token), rfl⟩
  | some owner => exact ⟨.ok owner.2, rfl⟩

theorem assign_live (h : Linked env.links) (hlive : here < env.depth) (token : Token)
    (value : Value) :
    (∃ after, env.assign here token value = .ok after ∧ after.links = env.links) ∨
      env.assign here token value = .error (.runtime (.undefinedVariable token)) := by
  obtain ⟨found, hfound, howner⟩ := resolve_live h hlive token.lexeme
  rw [assign, hfound]
  cases found with
  | none => exact .inr rfl
  | some owner => exact .inl (define_live (howner owner rfl) token.lexeme value)

/-- Releasing a scope keeps the links of the scopes below it. -/
theorem links_release (hid : id ≠ ScopeId.global) : (env.release id).links = env.links.take id := by
  rw [release, if_neg hid, links, links, List.take_reverse, List.map_drop, List.length_map, depth]

end Environment

namespace Run
variable {σ α β : Type} {kept : σ → Prop} {s : σ}

/-- A run that nothing but an error of the program stops, in a state with a property. -/
def EndsIn (kept : σ → Prop) (x : Run σ α) (s : σ) : Prop :=
  ∃ result next, x s = reply result next ∧ kept next

theorem EndsIn.pure (h : kept s) (a : α) : EndsIn kept (pure a : Run σ α) s :=
  ⟨.ok a, s, rfl, h⟩

theorem EndsIn.bind {x : Run σ α} {f : α → Run σ β} (h : EndsIn kept x s)
    (hf : ∀ a next, kept next → EndsIn kept (f a) next) : EndsIn kept (x >>= f) s := by
  obtain ⟨result, next, replied, hnext⟩ := h
  cases result with
  | error error => exact ⟨.error error, next, bind_of_error replied f, hnext⟩
  | ok a =>
    obtain ⟨last, final, replied', hfinal⟩ := hf a next hnext
    exact ⟨last, final, (bind_of_ok replied f).trans replied', hfinal⟩

private theorem EndsIn.blame (h : kept s) (token : Token) (result : Except TypeFault α) :
    EndsIn kept (blame token result) s :=
  ⟨_, s, blame_eq_reply token result s, h⟩

end Run

section Execution
variable {links : List (Option ScopeId)} {here : ScopeId}

/-- Evaluation keeps the links. -/
theorem Expr.evaluate_endsIn (h : Linked links) (hlive : here < links.length) (e : Expr)
    {env : Environment} (henv : env.HasLinks links) :
    Run.EndsIn (Environment.HasLinks links) (e.evaluate here) env := by
  have live : ∀ {env : Environment}, env.HasLinks links → here < env.depth := by
    rintro env rfl
    rwa [← env.length_links]
  induction e generalizing env with
  | literal value => exact .pure henv value
  | name token =>
    subst henv
    obtain ⟨result, hresult⟩ := Environment.get_live h (live rfl) token
    refine ⟨result, env, ?_, rfl⟩
    rw [evaluate, Run.ask, hresult]
    cases result <;> rfl
  | group inner ih => exact ih henv
  | unary operator operand ih => exact (ih henv).bind fun value next hnext => .blame hnext _ _
  | binary left operator right ihLeft ihRight =>
    refine (ihLeft henv).bind fun first middle hmiddle => ?_
    exact (ihRight hmiddle).bind fun second next hnext => .blame hnext _ _
  | assign target value ih =>
    refine (ih henv).bind fun new middle hmiddle => ?_
    refine Run.EndsIn.bind ?_ fun _ next hnext => .pure hnext new
    subst hmiddle
    obtain ⟨after, hafter, hlinks⟩ | hunbound :=
      Environment.assign_live h (live rfl) target new
    · exact ⟨.ok (), after, by rw [Run.change, hafter]; rfl, hlinks⟩
    · exact ⟨.error (.undefinedVariable target), middle, by rw [Run.change, hunbound]; rfl, rfl⟩

namespace Machine

/-- A machine in a scope, with the given links between all its scopes. -/
structure Within (links : List (Option ScopeId)) (here : ScopeId) (m : Machine) : Prop where
  links_eq : m.environment.links = links
  current_eq : m.current = here

variable {m : Machine}

theorem value_endsIn (h : Linked links) (hlive : here < links.length) (hm : m.Within links here)
    (e : Expr) : Run.EndsIn (Within links here) (value e) m := by
  obtain ⟨hlinks, rfl⟩ := hm
  obtain ⟨result, environment, replied, hafter⟩ := e.evaluate_endsIn h hlive hlinks
  refine ⟨result, { m with environment }, ?_, hafter, rfl⟩
  rw [value, replied]
  cases result <;> rfl

private theorem define_endsIn (hlive : here < links.length) (hm : m.Within links here)
    (name : String) (v : Value) : Run.EndsIn (Within links here) (define name v) m := by
  obtain ⟨rfl, rfl⟩ := hm
  rw [Environment.length_links] at hlive
  obtain ⟨environment, hdefined, hafter⟩ := Environment.define_live hlive name v
  refine ⟨.ok (), { m with environment }, ?_, hafter, rfl⟩
  rw [define, Run.change, hdefined]
  rfl

private theorem printLine_endsIn (hm : m.Within links here) (line : String) :
    Run.EndsIn (Within links here) (printLine line) m :=
  ⟨.ok (), { m with output := m.output.printLine line }, rfl, hm.links_eq, hm.current_eq⟩

/-- Leaving a new scope restores what entering it has changed. -/
private theorem inNewScope_endsIn (h : Linked links) (hm : m.Within links here)
    {body : Run Machine Unit}
    (inside : ∀ entered : Machine, entered.Within (links ++ [some here]) links.length →
      Run.EndsIn (Within (links ++ [some here]) links.length) body entered) :
    Run.EndsIn (Within links here) (inNewScope body) m := by
  obtain ⟨rfl, rfl⟩ := hm
  have hdepth : m.environment.links.length = m.environment.depth := m.environment.length_links
  obtain ⟨environment, pushed, hlinks⟩ : ∃ environment,
      m.environment.push m.current = (m.environment.depth, environment) ∧
        environment.links = m.environment.links ++ [some m.current] :=
    ⟨_, rfl, Environment.links_cons _ _⟩
  obtain ⟨result, last, replied, hlast, -⟩ :=
    inside ⟨environment, m.environment.depth, m.output⟩ ⟨hlinks, hdepth.symm⟩
  refine ⟨result, ⟨last.environment.release m.environment.depth, m.current, last.output⟩, ?_, ?_,
    rfl⟩
  · simp only [inNewScope, pushed, replied]
    cases result <;> rfl
  · rw [← hdepth, Environment.links_release h.length_ne_global, hlast, List.take_left']
    rfl

mutual

/-- A statement leaves the scopes as it found them. -/
theorem execute_endsIn {links : List (Option ScopeId)} {here : ScopeId} {m : Machine}
    (h : Linked links) (hlive : here < links.length) (hm : m.Within links here) :
    ∀ s : Stmt, Run.EndsIn (Within links here) (execute s) m
  | .evaluate e => (value_endsIn h hlive hm e).bind fun _ _ hnext => .pure hnext ()
  | .print e => (value_endsIn h hlive hm e).bind fun v _ hnext => printLine_endsIn hnext v.display
  | .declare name none => define_endsIn hlive hm name.lexeme .nil
  | .declare name (some initial) =>
    (value_endsIn h hlive hm initial).bind fun v _ hnext =>
      define_endsIn hlive hnext name.lexeme v
  | .block body =>
    inNewScope_endsIn h hm fun _ hentered =>
      executeAll_endsIn (h.push hlive) (by simp) hentered body

theorem executeAll_endsIn {links : List (Option ScopeId)} {here : ScopeId} {m : Machine}
    (h : Linked links) (hlive : here < links.length) (hm : m.Within links here) :
    ∀ program : List Stmt, Run.EndsIn (Within links here) (executeAll program) m
  | [] => .pure hm ()
  | first :: rest =>
    (execute_endsIn h hlive hm first).bind fun _ _ hnext => executeAll_endsIn h hlive hnext rest

end

end Machine
end Execution

end BlockScript
