import BlockScript.Proofs.Evaluation.Printing
import BlockScript.Proofs.Scope.Arena

/-!
What a host may do with an environment. Scopes may be entered from any live scope and released in
any order, so that they form a tree whose indices are used again; still every link leads downwards,
and every way outwards ends in the global scope.
-/
namespace BlockScript

namespace Run
variable {σ α : Type} {q : σ → Except Abort α} {f : σ → Except Abort σ} {s next : σ}
  {error : RuntimeError}

private theorem ask_of_ok {a : α} (h : q s = .ok a) : ask q s = reply (.ok a) s := by
  rw [ask, h]
  rfl

private theorem ask_of_error (h : q s = .error (.runtime error)) :
    ask q s = reply (.error error) s := by
  rw [ask, h]
  rfl

private theorem change_of_ok (h : f s = .ok next) : change f s = reply (.ok ()) next := by
  rw [change, h]
  rfl

private theorem change_of_error (h : f s = .error (.runtime error)) :
    change f s = reply (.error error) s := by
  rw [change, h]
  rfl

end Run

/-- What a host may ask of an environment. -/
inductive Operation where
  | push (outer : ScopeId)
  | release (id : ScopeId)
  | define (id : ScopeId) (name : String) (value : Value)
  | get (id : ScopeId) (name : Token)
  | assign (id : ScopeId) (name : Token) (value : Value)

namespace Operation

/-- What an environment answers. -/
inductive Answer where
  | scope (id : ScopeId)
  | value (v : Value)
  | done

/-- An assignment answers the value that it has assigned. -/
def perform : Operation → Run Environment Answer
  | push outer => modifyGet fun env => (env.push outer).map Answer.scope id
  | release id => do
    modify (·.release id)
    return .done
  | define id name value => do
    Run.change (·.define id name value)
    return .done
  | get id name => return .value (← Run.ask (·.get id name))
  | assign id name value => do
    Run.change (·.assign id name value)
    return .value value

/-- The operation is on live scopes. Any scope may be released, live or not. -/
def OnLive (env : Environment) : Operation → Prop
  | push id => id < env.depth
  | release _ => True
  | define id _ _ => id < env.depth
  | get id _ => id < env.depth
  | assign id _ _ => id < env.depth

instance (env : Environment) : (op : Operation) → Decidable (op.OnLive env)
  | push id => inferInstanceAs (Decidable (id < env.depth))
  | release _ => inferInstanceAs (Decidable True)
  | define id _ _ => inferInstanceAs (Decidable (id < env.depth))
  | get id _ => inferInstanceAs (Decidable (id < env.depth))
  | assign id _ _ => inferInstanceAs (Decidable (id < env.depth))

end Operation

namespace Environment

/-- Operations on live scopes, one after another. One that fails does not keep the next from being
performed. -/
inductive History : Environment → List Operation → Environment → Prop where
  | nil (env : Environment) : History env [] env
  | cons {env last : Environment} {op : Operation} {rest : List Operation} :
      op.OnLive env → History (op.perform.final env) rest last → History env (op :: rest) last

/-- Operations on live scopes lead from a new environment to this one. -/
def Reachable (env : Environment) : Prop := ∃ ops, History .empty ops env

/-- What an operation on live scopes leaves behind. -/
inductive Effect (env : Environment) : Operation → Environment → Prop where
  | push {outer : ScopeId} : outer < env.depth → Effect env (.push outer) (env.push outer).2
  | release (id : ScopeId) : Effect env (.release id) (env.release id)
  | define {id : ScopeId} {name : String} {value : Value} {after : Environment} :
      id < env.depth → env.define id name value = .ok after →
      Effect env (.define id name value) after
  | get (id : ScopeId) (token : Token) : Effect env (.get id token) env
  | assign {id owner : ScopeId} {token : Token} {value : Value} {after : Environment} :
      env.ResolvesTo id token.lexeme owner → env.define owner token.lexeme value = .ok after →
      Effect env (.assign id token value) after
  | unbound (id : ScopeId) (token : Token) (value : Value) : Effect env (.assign id token value) env

section Steps
variable {env : Environment} {op : Operation} {id : ScopeId}

/-- A declaration in a live scope succeeds. -/
theorem perform_define (hlive : id < env.depth) (name : String) (value : Value) :
    ∃ after, env.define id name value = .ok after ∧ after.links = env.links ∧
      (Operation.define id name value).perform env = .ok .done after := by
  obtain ⟨after, hdefine, hlinks⟩ := define_live hlive name value
  exact ⟨after, hdefine, hlinks, Run.bind_of_ok (Run.change_of_ok hdefine) _⟩

/-- Reading changes nothing. -/
private theorem perform_get (h : Linked env.links) (hlive : id < env.depth) (token : Token) :
    (∃ value, env.get id token = .ok value ∧
      (Operation.get id token).perform env = .ok (.value value) env) ∨
    (env.get id token = .error (.runtime (.undefinedVariable token)) ∧
      (Operation.get id token).perform env =
        .error (.runtime (.undefinedVariable token)) env) := by
  obtain ⟨found, hfound, -⟩ := resolve_live h hlive token.lexeme
  cases found with
  | none =>
    have hget := get_of_resolve_none hfound
    have hasked := Run.ask_of_error (q := fun env : Environment => env.get id token) hget
    exact .inr ⟨hget, Run.bind_of_error hasked _⟩
  | some found =>
    have hget := get_of_resolve_some hfound
    have hasked := Run.ask_of_ok (q := fun env : Environment => env.get id token) hget
    exact .inl ⟨found.2, hget, Run.bind_of_ok hasked _⟩

/-- An assignment writes to the scope that the name resolves to. Where there is none, it changes
nothing. -/
theorem perform_assign (h : Linked env.links) (hlive : id < env.depth) (token : Token)
    (value : Value) :
    (∃ owner after, env.ResolvesTo id token.lexeme owner ∧
      env.define owner token.lexeme value = .ok after ∧ after.links = env.links ∧
        (∃ old, env.get id token = .ok old) ∧
        (Operation.assign id token value).perform env = .ok (.value value) after) ∨
    (env.get id token = .error (.runtime (.undefinedVariable token)) ∧
      (Operation.assign id token value).perform env =
        .error (.runtime (.undefinedVariable token)) env) := by
  obtain ⟨found, hfound, howner⟩ := resolve_live h hlive token.lexeme
  cases found with
  | none =>
    have hassign : env.assign id token value = .error (.runtime (.undefinedVariable token)) := by
      rw [Environment.assign, hfound]
      rfl
    exact .inr ⟨get_of_resolve_none hfound, Run.bind_of_error (Run.change_of_error hassign) _⟩
  | some found =>
    obtain ⟨hreaches, hvalue⟩ := (resolve_eq_some_iff h hlive).mp hfound
    obtain ⟨after, hdefine, hlinks⟩ := define_live (howner _ rfl) token.lexeme value
    have hassign : env.assign id token value = .ok after := by
      rw [Environment.assign, hfound]
      exact hdefine
    exact .inl ⟨found.1, after, ⟨hreaches, by simp [hvalue]⟩, hdefine, hlinks,
      ⟨found.2, get_of_resolve_some hfound⟩, Run.bind_of_ok (Run.change_of_ok hassign) _⟩

/-- Each operation on live scopes has one of the effects. -/
theorem effect_of_perform (h : Linked env.links) (hlive : op.OnLive env) :
    env.Effect op (op.perform.final env) := by
  cases op with
  | push outer => exact .push hlive
  | release id => exact .release id
  | define id name value =>
    obtain ⟨after, hdefine, -, hperform⟩ := perform_define hlive name value
    rw [Run.final_of_ok hperform]
    exact .define hlive hdefine
  | get id token =>
    rcases perform_get h hlive token with ⟨v, -, hperform⟩ | ⟨-, hperform⟩
    · rw [Run.final_of_ok hperform]
      exact .get id token
    · rw [Run.final_of_error hperform]
      exact .get id token
  | assign id token value =>
    rcases perform_assign h hlive token value with
      ⟨owner, after, hresolves, hdefine, -, -, hperform⟩ | ⟨-, hperform⟩
    · rw [Run.final_of_ok hperform]
      exact .assign hresolves hdefine
    · rw [Run.final_of_error hperform]
      exact .unbound id token value

end Steps

section Links
variable {env after last : Environment} {op : Operation} {ops : List Operation} {id : ScopeId}

/-- No effect turns a link upwards. -/
theorem Effect.linked (h : Linked env.links) (heffect : env.Effect op after) :
    Linked after.links := by
  cases heffect with
  | @push outer houter =>
    have hlinks : (env.push outer).2.links = env.links ++ [some outer] := links_cons _ _
    rw [hlinks]
    exact h.push (by rwa [length_links])
  | release id =>
    by_cases hid : id = ScopeId.global
    · rwa [Environment.release, if_pos hid]
    · rw [links_release hid]
      exact h.take hid
  | define hlive hdefine => rwa [links_of_define hlive hdefine]
  | assign hresolves hdefine => rwa [links_of_define (lt_depth_of_value? hresolves.2) hdefine]
  | get | unbound => exact h

theorem History.linked (hops : History env ops last) (h : Linked env.links) :
    Linked last.links := by
  induction hops with
  | nil => exact h
  | cons hlive _ ih => exact ih ((effect_of_perform h hlive).linked h)

theorem Reachable.linked (h : env.Reachable) : Linked env.links := by
  obtain ⟨ops, hops⟩ := h
  exact hops.linked .new

/-- Ways outwards. Whatever a host did on live scopes, there is a global scope and every other scope
is linked to one with a smaller index. So from each live scope there is a way outwards over live
scopes that comes to an end, on which reading and assigning look for a name, and neither of them uses
a scope that is gone. -/
theorem ways_outwards_end (hops : History .empty ops env) :
    1 ≤ env.depth ∧ Linked env.links ∧
      ∀ id < env.depth,
        (∃ ids, env.Chain id ids ∧ (∀ outer ∈ ids, outer < env.depth) ∧ ids.Pairwise (· > ·) ∧
          ∀ name, env.resolve id name =
            .ok (ids.findSome? fun i => (env.value? i name).map fun v => (i, v))) ∧
        (∀ token, (∃ v, (Operation.get id token).perform env = .ok (.value v) env) ∨
          (Operation.get id token).perform env =
            .error (.runtime (.undefinedVariable token)) env) ∧
        ∀ token v,
          (∃ after, (Operation.assign id token v).perform env = .ok (.value v) after) ∨
          (Operation.assign id token v).perform env =
            .error (.runtime (.undefinedVariable token)) env := by
  have h : Linked env.links := hops.linked .new
  refine ⟨?_, h, fun id hlive => ⟨?_, fun token => ?_, fun token v => ?_⟩⟩
  · rw [← length_links]
    exact Nat.pos_of_ne_zero h.length_ne_global
  · obtain ⟨ids, hchain⟩ := exists_chain h hlive
    exact ⟨ids, hchain, hchain.live, (hchain.descends h).1, hchain.resolve h⟩
  · rcases perform_get h hlive token with ⟨v, -, hperform⟩ | ⟨-, hperform⟩
    · exact .inl ⟨v, hperform⟩
    · exact .inr hperform
  · rcases perform_assign h hlive token v with ⟨-, after, -, -, -, -, hperform⟩ | ⟨-, hperform⟩
    · exact .inl ⟨after, hperform⟩
    · exact .inr hperform

/-- Two scopes inside the global one, the older one released first, and their indices used again. -/
theorem ways_outwards_end_reused :
    let a : Token := ⟨.identifier, "a", .nil, 1⟩
    let ops : List Operation := [.push 0, .push 1, .push 0, .release 2, .push 1, .release 1,
      .release 7, .release 0, .push 0, .push 1, .push 1, .define 1 "a" .nil,
      .assign 3 a (.string "v")]
    let env : Environment :=
      ⟨[⟨[], some 1⟩, ⟨[], some 1⟩, ⟨[("a", .string "v")], some 0⟩, ⟨[], none⟩]⟩
    History .empty ops env ∧ Linked env.links ∧
      (∃ ids, env.Chain 3 ids ∧ (∀ outer ∈ ids, outer < 4) ∧ ids.Pairwise (· > ·)) ∧
      ((∃ v, (Operation.get 3 a).perform env = .ok (.value v) env) ∨
        (Operation.get 3 a).perform env = .error (.runtime (.undefinedVariable a)) env) := by
  intro a ops env
  have hops : History .empty ops env := by
    repeat' refine .cons (by decide) ?_
    exact .nil _
  obtain ⟨-, hlinked, hways⟩ := ways_outwards_end hops
  obtain ⟨⟨ids, hchain, hlive, hdown, -⟩, hget, -⟩ := hways 3 (by decide)
  exact ⟨hops, hlinked, ⟨ids, hchain, hlive, hdown⟩, hget a⟩

end Links

end Environment
end BlockScript
