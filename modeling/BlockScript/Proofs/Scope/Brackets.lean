import BlockScript.Proofs.Scope.Histories

/-!
What is left of a scope behind its release. Operations on it and on the scopes above it, whatever they
enter and release, do nothing to the scopes below but overwrite variables that an assignment among
them resolves to there.
-/
namespace BlockScript

namespace Operation

/-- The operation is on no scope below an index, but it may enter a scope inside one of them. -/
def Above (bound : ScopeId) : Operation → Prop
  | push _ => True
  | release id => bound ≤ id
  | define id _ _ => bound ≤ id
  | get id _ => bound ≤ id
  | assign id _ _ => bound ≤ id

instance (bound : ScopeId) : (op : Operation) → Decidable (op.Above bound)
  | push _ => inferInstanceAs (Decidable True)
  | release id => inferInstanceAs (Decidable (bound ≤ id))
  | define id _ _ => inferInstanceAs (Decidable (bound ≤ id))
  | get id _ => inferInstanceAs (Decidable (bound ≤ id))
  | assign id _ _ => inferInstanceAs (Decidable (bound ≤ id))

/-- The names that an operation assigns to, if they resolve to the scope. -/
def overwrites (env : Environment) (op : Operation) (owner : ScopeId) : Set String :=
  {name | ∃ id token value, op = .assign id token value ∧ token.lexeme = name ∧
    env.ResolvesTo id name owner}

end Operation

/-- A scope before and after some of the names that it binds were overwritten. -/
structure Scope.Rewritten (T : Set String) (old new : Scope) : Prop where
  enclosing : new.enclosing = old.enclosing
  names (name : String) : new.bindings.find? name = none ↔ old.bindings.find? name = none
  kept (name : String) : name ∉ T → new.bindings.find? name = old.bindings.find? name
  same : T = ∅ → new = old

namespace Scope.Rewritten
variable {T T' : Set String} {old middle new : Scope}

theorem refl (scope : Scope) : Rewritten T scope scope :=
  ⟨rfl, fun _ => Iff.rfl, fun _ _ => rfl, fun _ => rfl⟩

theorem trans (h : Rewritten T old middle) (h' : Rewritten T' middle new) :
    Rewritten (T ∪ T') old new where
  enclosing := h'.enclosing.trans h.enclosing
  names name := (h'.names name).trans (h.names name)
  kept name hname := by
    rw [Set.mem_union, not_or] at hname
    exact (h'.kept name hname.2).trans (h.kept name hname.1)
  same hempty := by
    obtain ⟨hT, hT'⟩ := Set.union_empty_iff.mp hempty
    exact (h'.same hT').trans (h.same hT)

theorem mono (hsubset : T ⊆ T') (h : Rewritten T old new) : Rewritten T' old new where
  enclosing := h.enclosing
  names := h.names
  kept name hname := h.kept name fun hmem => hname (hsubset hmem)
  same hempty := h.same (Set.subset_empty_iff.mp (hempty ▸ hsubset))

theorem set {scope : Scope} {name : String} (hname : name ∈ T)
    (hbound : scope.bindings.find? name ≠ none) (value : Value) :
    Rewritten T scope { scope with bindings := scope.bindings.set name value } where
  enclosing := rfl
  names other := by
    by_cases hother : other = name
    · simp [hother, Bindings.find?_set_self, hbound]
    · rw [Bindings.find?_set_of_ne _ _ hother]
  kept other hother := Bindings.find?_set_of_ne _ _ (ne_of_mem_of_not_mem hname hother).symm
  same hempty := absurd (hempty ▸ hname) (Set.notMem_empty name)

end Scope.Rewritten

namespace Environment

/-- The names that assignments among operations overwrite in a scope. -/
def overwritten (start : Environment) (ops : List Operation) (owner : ScopeId) : Set String :=
  {name | ∃ before op after middle, ops = before ++ op :: after ∧ History start before middle ∧
    name ∈ op.overwrites middle owner}

/-- Below an index, two environments have the same scopes, of which some names were overwritten. -/
def KeptBelow (bound : ScopeId) (T : ScopeId → Set String) (env after : Environment) : Prop :=
  ∀ id < bound, ∃ old new, env.scope? id = some old ∧ after.scope? id = some new ∧
    Scope.Rewritten (T id) old new

namespace KeptBelow
variable {bound : ScopeId} {T T' : ScopeId → Set String} {env middle after : Environment}

private theorem of_eq (hlive : bound ≤ env.depth)
    (h : ∀ id < bound, after.scope? id = env.scope? id) :
    KeptBelow bound T env after := by
  intro id hid
  obtain ⟨scope, hscope⟩ := lt_depth_iff.mp (Nat.lt_of_lt_of_le hid hlive)
  exact ⟨scope, scope, hscope, (h id hid).trans hscope, .refl scope⟩

theorem trans (h : KeptBelow bound T env middle) (h' : KeptBelow bound T' middle after) :
    KeptBelow bound (fun id => T id ∪ T' id) env after := by
  intro id hid
  obtain ⟨old, changed, hold, hchanged, hfirst⟩ := h id hid
  obtain ⟨changed', new, hchanged', hnew, hsecond⟩ := h' id hid
  obtain rfl : changed = changed' := Option.some.inj (hchanged.symm.trans hchanged')
  exact ⟨old, new, hold, hnew, hfirst.trans hsecond⟩

theorem mono (hsubset : ∀ id, T id ⊆ T' id) (h : KeptBelow bound T env after) :
    KeptBelow bound T' env after := by
  intro id hid
  obtain ⟨old, new, hold, hnew, hrewritten⟩ := h id hid
  exact ⟨old, new, hold, hnew, hrewritten.mono (hsubset id)⟩

/-- The scopes below the index are still there. -/
theorem live (h : KeptBelow bound T env after) : bound ≤ after.depth := by
  by_contra hgone
  obtain ⟨-, new, -, hnew, -⟩ := h after.depth (Nat.not_le.mp hgone)
  exact Nat.lt_irrefl _ (lt_depth_iff.mpr ⟨new, hnew⟩)

end KeptBelow

section Brackets
variable {env after last : Environment} {op : Operation} {ops : List Operation} {bound : ScopeId}

/-- No operation above an index does more to the scopes below it than overwrite names. -/
theorem Effect.keptBelow (hglobal : bound ≠ ScopeId.global) (hlive : bound ≤ env.depth)
    (habove : op.Above bound) (heffect : env.Effect op after) :
    KeptBelow bound (op.overwrites env) env after := by
  cases heffect with
  | push =>
    refine .of_eq hlive fun id hid => ?_
    rw [scope?_push, if_neg (Nat.ne_of_lt (Nat.lt_of_lt_of_le hid hlive))]
  | release id =>
    have hreleased : id ≠ ScopeId.global := by
      rintro rfl
      exact hglobal (Nat.le_zero.mp habove)
    refine .of_eq hlive fun i hi => ?_
    rw [scope?_release hreleased, if_pos (Nat.lt_of_lt_of_le hi habove)]
  | define _ hdefine =>
    refine .of_eq hlive fun i hi => ?_
    rw [scope?_of_define hdefine, if_neg (Nat.ne_of_lt (Nat.lt_of_lt_of_le hi habove))]
  | get | unbound => exact .of_eq hlive fun _ _ => rfl
  | @assign id owner token value _ hresolves hdefine =>
    intro i hi
    obtain ⟨scope, hscope⟩ := lt_depth_iff.mp (Nat.lt_of_lt_of_le hi hlive)
    have hset := scope?_of_define hdefine i
    by_cases howner : i = owner
    · subst howner
      rw [if_pos rfl, hscope, Option.map_some] at hset
      have hname : token.lexeme ∈ (Operation.assign id token value).overwrites env i :=
        ⟨id, token, value, rfl, rfl, hresolves⟩
      refine ⟨scope, _, hscope, hset, .set hname ?_ value⟩
      rw [← value?_of_scope? hscope]
      exact hresolves.2
    · rw [if_neg howner] at hset
      exact ⟨scope, scope, hscope, hset.trans hscope, .refl scope⟩

theorem History.keptBelow (hops : History env ops last) (h : Linked env.links)
    (hglobal : bound ≠ ScopeId.global) (hlive : bound ≤ env.depth)
    (habove : ∀ op ∈ ops, op.Above bound) :
    KeptBelow bound (env.overwritten ops) env last := by
  induction hops with
  | nil => exact .of_eq hlive fun _ _ => rfl
  | @cons env last op rest honLive hrest ih =>
    obtain ⟨hop, hothers⟩ := List.forall_mem_cons.mp habove
    have heffect := effect_of_perform h honLive
    have hfirst := heffect.keptBelow hglobal hlive hop
    refine (hfirst.trans (ih (heffect.linked h) hfirst.live hothers)).mono fun id name hname => ?_
    rcases hname with hname | ⟨before, op', after, middle, rfl, hbefore, hname⟩
    · exact ⟨[], op, rest, env, rfl, .nil env, hname⟩
    · exact ⟨op :: before, op', after, middle, rfl, .cons honLive hbefore, hname⟩

/-- Behind the release of a scope, the scopes below it are those of before, of which some names were
overwritten. -/
private theorem keptBelow_release (hreachable : env.Reachable) {outer : ScopeId}
    (houter : outer < env.depth) (hops : History (env.push outer).2 ops last)
    (habove : ∀ op ∈ ops, op.Above env.depth) :
    KeptBelow env.depth ((env.push outer).2.overwritten ops) env (last.release env.depth) ∧
      (last.release env.depth).depth = env.depth := by
  have h := hreachable.linked
  have hglobal : env.depth ≠ ScopeId.global := by
    rw [← length_links]
    exact h.length_ne_global
  have hpushed : ∀ id < env.depth, (env.push outer).2.scope? id = env.scope? id := by
    intro id hid
    rw [scope?_push, if_neg (Nat.ne_of_lt hid)]
  have hkept := hops.keptBelow ((Effect.push houter).linked h) hglobal (Nat.le_succ _) habove
  constructor
  · intro id hid
    obtain ⟨old, new, hold, hnew, hrewritten⟩ := hkept id hid
    refine ⟨old, new, (hpushed id hid).symm.trans hold, ?_, hrewritten⟩
    rw [scope?_release hglobal, if_pos hid, hnew]
  · rw [← length_links, links_release hglobal, List.length_take, length_links]
    exact Nat.min_eq_left hkept.live

end Brackets

section Comparison
variable {T : ScopeId → Set String} {env after : Environment}

/-- Where the scopes below the index are all scopes there are, each index has the same scope but for
overwritten names, or none. -/
private theorem KeptBelow.scope_cases (h : KeptBelow env.depth T env after)
    (hdepth : after.depth = env.depth) (id : ScopeId) :
    (id < env.depth ∧ ∃ old new, env.scope? id = some old ∧ after.scope? id = some new ∧
      Scope.Rewritten (T id) old new) ∨ (env.scope? id = none ∧ after.scope? id = none) := by
  by_cases hid : id < env.depth
  · exact .inl ⟨hid, h id hid⟩
  · rw [Nat.not_lt] at hid
    exact .inr ⟨scope?_eq_none hid, scope?_eq_none (hdepth ▸ hid)⟩

section
variable (h : KeptBelow env.depth T env after) (hdepth : after.depth = env.depth)
include h hdepth

theorem KeptBelow.links_eq : after.links = env.links := by
  apply List.ext_getElem?
  intro id
  rw [getElem?_links, getElem?_links]
  rcases h.scope_cases hdepth id with ⟨-, old, new, hold, hnew, hrewritten⟩ | ⟨hold, hnew⟩
  · rw [hold, hnew, Option.map_some, Option.map_some, hrewritten.enclosing]
  · rw [hold, hnew]

/-- The names of each scope are the same. -/
private theorem KeptBelow.value?_eq_none_iff (id : ScopeId) (name : String) :
    after.value? id name = none ↔ env.value? id name = none := by
  rcases h.scope_cases hdepth id with ⟨-, old, new, hold, hnew, hrewritten⟩ | ⟨hold, hnew⟩
  · rw [value?_of_scope? hold, value?_of_scope? hnew]
    exact hrewritten.names name
  · rw [value?, value?, hold, hnew]

private theorem KeptBelow.of_value?_ne {id : ScopeId} {name : String}
    (hne : after.value? id name ≠ env.value? id name) : id < env.depth ∧ name ∈ T id := by
  rcases h.scope_cases hdepth id with ⟨hid, old, new, hold, hnew, hrewritten⟩ | ⟨hold, hnew⟩
  · rw [value?_of_scope? hold, value?_of_scope? hnew] at hne
    exact ⟨hid, by_contra fun hname => hne (hrewritten.kept name hname)⟩
  · rw [value?, value?, hold, hnew] at hne
    exact absurd rfl hne

/-- Without overwritten names the environment is the same. -/
theorem KeptBelow.eq (hnone : ∀ id < env.depth, T id = ∅) : after = env := by
  apply ext_scope?
  intro id
  rcases h.scope_cases hdepth id with ⟨hid, old, new, hold, hnew, hrewritten⟩ | ⟨hold, hnew⟩
  · rw [hold, hnew, hrewritten.same (hnone id hid)]
  · rw [hold, hnew]

end

end Comparison

/-- Brackets. Between entering a scope and releasing it, operations on that scope and on those above
it may come in any order, release the scope itself and use its index again. Behind the release the
environment has the scopes, links and names that it had before. Only values of names that an
assignment among the operations resolved to a scope below have changed; without such an assignment
the environment is the one before. -/
theorem release_restores {env last : Environment} (hreachable : env.Reachable) {outer : ScopeId}
    (houter : outer < env.depth) {ops : List Operation}
    (hops : History (env.push outer).2 ops last)
    (habove : ∀ op ∈ ops, op.Above (env.push outer).1) :
    let id := (env.push outer).1
    let final := last.release id
    final.links = env.links ∧
      (∀ i name, final.value? i name = none ↔ env.value? i name = none) ∧
      (∀ i name, final.value? i name ≠ env.value? i name →
        i < id ∧ name ∈ (env.push outer).2.overwritten ops i) ∧
      ((∀ i < id, (env.push outer).2.overwritten ops i = ∅) → final = env) := by
  intro id final
  obtain ⟨hkept, hdepth⟩ : KeptBelow env.depth ((env.push outer).2.overwritten ops) env final ∧
      final.depth = env.depth :=
    keptBelow_release hreachable houter hops habove
  exact ⟨hkept.links_eq hdepth, hkept.value?_eq_none_iff hdepth,
    fun i name hne => hkept.of_value?_ne hdepth hne, hkept.eq hdepth⟩

/-- The scope is released and entered again in between, hides a name, and assigns another one. -/
theorem release_restores_reused :
    let a : Token := ⟨.identifier, "a", .nil, 1⟩
    let b : Token := ⟨.identifier, "b", .nil, 1⟩
    let before : List Operation := [.define 0 "a" .nil, .define 0 "b" .nil]
    let env : Environment := ⟨[⟨[("a", .nil), ("b", .nil)], none⟩]⟩
    let ops : List Operation := [.push 1, .release 1, .push 0, .define 1 "a" .nil,
      .assign 1 a (.string "v"), .push 0, .assign 2 b (.string "w")]
    let last : Environment :=
      ⟨[⟨[], some 0⟩, ⟨[("a", .string "v")], some 0⟩,
        ⟨[("a", .nil), ("b", .string "w")], none⟩]⟩
    let final := last.release (env.push 0).1
    History .empty before env ∧ 0 < env.depth ∧ History (env.push 0).2 ops last ∧
      (∀ op ∈ ops, op.Above (env.push 0).1) ∧ final.links = env.links ∧
      (∀ i name, final.value? i name = none ↔ env.value? i name = none) ∧
      ∀ i name, final.value? i name ≠ env.value? i name →
        i < (env.push 0).1 ∧ name ∈ (env.push 0).2.overwritten ops i := by
  intro a b before env ops last final
  have hbefore : History .empty before env := by
    repeat' refine .cons (by decide) ?_
    exact .nil _
  have hlive : (0 : ScopeId) < env.depth := by decide
  have hops : History (env.push 0).2 ops last := by
    repeat' refine .cons (by decide) ?_
    exact .nil _
  have habove : ∀ op ∈ ops, op.Above (env.push 0).1 := by decide
  obtain ⟨hlinks, hnames, hchanged, -⟩ := release_restores ⟨before, hbefore⟩ hlive hops habove
  exact ⟨hbefore, hlive, hops, habove, hlinks, hnames, hchanged⟩

end Environment
end BlockScript
