import BlockScript.Proofs.Evaluation.Links

/-!
Scopes by their indices. Where links lead downwards, following them from a live scope ends in the
global scope, and resolving a name is looking for it along that way.
-/
namespace BlockScript.Environment

/-- The live scope with an index. -/
def scope? (env : Environment) (id : ScopeId) : Option Scope := env.scopes.reverse[id]?

/-- What the scope with an index itself binds a name to. -/
def value? (env : Environment) (id : ScopeId) (name : String) : Option Value :=
  (env.scope? id).bind (·.bindings.find? name)

/-- The way from a live scope outwards, to the scope that has no enclosing scope. -/
inductive Chain (env : Environment) : ScopeId → List ScopeId → Prop where
  | outermost {id : ScopeId} {scope : Scope} :
      env.scope? id = some scope → scope.enclosing = none → Chain env id [id]
  | inside {id outer : ScopeId} {scope : Scope} {rest : List ScopeId} :
      env.scope? id = some scope → scope.enclosing = some outer → Chain env outer rest →
      Chain env id (id :: rest)

/-- A scope is on the way outwards from another one, and none before it binds the name. -/
def Reaches (env : Environment) (id : ScopeId) (name : String) (target : ScopeId) : Prop :=
  ∃ before after, env.Chain id (before ++ target :: after) ∧
    ∀ inner ∈ before, env.value? inner name = none

/-- A scope is the first on the way outwards from another one that binds the name. -/
def ResolvesTo (env : Environment) (id : ScopeId) (name : String) (owner : ScopeId) : Prop :=
  env.Reaches id name owner ∧ env.value? owner name ≠ none

section Scopes
variable {env other : Environment} {id : ScopeId} {scope : Scope}

private theorem scope?_cons (scope : Scope) (below : List Scope) (id : ScopeId) :
    scope? ⟨scope :: below⟩ id = if id = below.length then some scope else scope? ⟨below⟩ id := by
  rw [scope?, scope?, List.reverse_cons]
  split
  · rename_i hid
    rw [hid, ← List.length_reverse, List.getElem?_concat_length]
  · rename_i hid
    rcases Nat.lt_or_gt_of_ne hid with hlt | hgt
    · rw [List.getElem?_append_left (by rwa [List.length_reverse])]
    · rw [List.getElem?_eq_none, List.getElem?_eq_none]
      · simpa using Nat.le_of_lt hgt
      · simpa using Nat.succ_le_of_lt hgt

theorem lt_depth_iff : id < env.depth ↔ ∃ scope, env.scope? id = some scope := by
  rw [← Option.isSome_iff_exists, scope?, isSome_getElem?, List.length_reverse, depth]

theorem scope?_eq_none (h : env.depth ≤ id) : env.scope? id = none :=
  List.getElem?_eq_none (by rwa [List.length_reverse])

/-- Environments with the same scope at each index are the same. -/
theorem ext_scope? (h : ∀ id, env.scope? id = other.scope? id) : env = other := by
  obtain ⟨scopes⟩ := env
  obtain ⟨others⟩ := other
  have hreversed : scopes.reverse = others.reverse := List.ext_getElem? h
  rw [List.reverse_inj.mp hreversed]

theorem getElem?_links (env : Environment) (id : ScopeId) :
    env.links[id]? = (env.scope? id).map Scope.enclosing := by
  rw [links, ← List.map_reverse, List.getElem?_map, scope?]

theorem lt_depth_of_value? {name : String} (h : env.value? id name ≠ none) : id < env.depth := by
  obtain ⟨v, hv⟩ := Option.ne_none_iff_exists'.mp h
  obtain ⟨scope, hscope, -⟩ := Option.bind_eq_some_iff.mp hv
  exact lt_depth_iff.mpr ⟨scope, hscope⟩

theorem value?_of_scope? (h : env.scope? id = some scope) (name : String) :
    env.value? id name = scope.bindings.find? name := by
  rw [value?, h, Option.bind_some]

end Scopes

section Ways
variable {env : Environment} {id : ScopeId} {scope : Scope} {ids : List ScopeId} {name : String}

/-- A scope is left outwards only where it does not bind the name. -/
private theorem resolveIn_eq {scopes : List Scope} (name : String)
    (h : ∀ id outer : ScopeId, (links ⟨scopes⟩)[id]? = some (some outer) → outer < id)
    (hscope : scope? ⟨scopes⟩ id = some scope) :
    resolveIn name scopes id = (scope.bindings.find? name).elim
      (scope.enclosing.elim (.ok none) (resolveIn name scopes)) fun v => .ok (some (id, v)) := by
  induction scopes generalizing id with
  | nil => cases hscope
  | cons top below ih =>
    -- A scope below the top one does not see it, for the way from there leads downwards.
    have skip : ∀ {id : ScopeId}, id < below.length →
        resolveIn name (top :: below) id = resolveIn name below id := by
      intro id hlt
      rw [resolveIn, if_neg (Nat.ne_of_lt hlt)]
    have hlink : ∀ outer ∈ scope.enclosing, outer < id := by
      intro outer houter
      apply h
      rw [getElem?_links, hscope, Option.map_some, Option.mem_def.mp houter]
    rw [scope?_cons] at hscope
    split at hscope
    · rename_i hid
      cases hscope
      subst hid
      rw [resolveIn, if_pos rfl]
      cases scope.bindings.find? name with
      | some v => rfl
      | none =>
        cases henclosing : scope.enclosing with
        | none => rfl
        | some outer => exact (skip (hlink outer henclosing)).symm
    · have hlt : id < below.length := lt_depth_iff.mpr ⟨scope, hscope⟩
      have hbelow : ∀ id outer : ScopeId, (links ⟨below⟩)[id]? = some (some outer) → outer < id := by
        intro id outer hl
        apply h
        rw [links_cons, List.getElem?_append_left (List.getElem?_eq_some_iff.mp hl).1, hl]
      rw [skip hlt, ih hbelow hscope]
      cases henclosing : scope.enclosing with
      | none => rfl
      | some outer =>
        have houter := Nat.lt_trans (hlink outer henclosing) hlt
        rw [Option.elim_some, Option.elim_some, skip houter]

theorem Chain.live (h : env.Chain id ids) : ∀ i ∈ ids, i < env.depth := by
  induction h with
  | outermost hscope =>
    rw [List.forall_mem_singleton]
    exact lt_depth_iff.mpr ⟨_, hscope⟩
  | inside hscope _ _ ih => exact List.forall_mem_cons.mpr ⟨lt_depth_iff.mpr ⟨_, hscope⟩, ih⟩

/-- Ways depend on the links alone. -/
theorem Chain.of_links {other : Environment} (hlinks : other.links = env.links)
    (h : env.Chain id ids) : other.Chain id ids := by
  have moved : ∀ {id : ScopeId} {scope : Scope}, env.scope? id = some scope →
      ∃ found, other.scope? id = some found ∧ found.enclosing = scope.enclosing := by
    intro id scope hscope
    have hlink := getElem?_links other id
    rw [hlinks, getElem?_links, hscope, Option.map_some] at hlink
    obtain ⟨found, hfound, henclosing⟩ := Option.map_eq_some_iff.mp hlink.symm
    exact ⟨found, hfound, henclosing⟩
  induction h with
  | outermost hscope henclosing =>
    obtain ⟨found, hfound, hsame⟩ := moved hscope
    exact .outermost hfound (hsame.trans henclosing)
  | inside hscope henclosing _ ih =>
    obtain ⟨found, hfound, hsame⟩ := moved hscope
    exact .inside hfound (hsame.trans henclosing) ih

/-- From a live scope the way outwards comes to an end. -/
theorem exists_chain (h : Linked env.links) (hlive : id < env.depth) : ∃ ids, env.Chain id ids := by
  induction id using Nat.strong_induction_on with
  | _ id ih =>
    obtain ⟨scope, hscope⟩ := lt_depth_iff.mp hlive
    cases henclosing : scope.enclosing with
    | none => exact ⟨[id], .outermost hscope henclosing⟩
    | some outer =>
      have hlt : outer < id := by
        apply h.lt_of_link
        rw [getElem?_links, hscope, Option.map_some, henclosing]
      obtain ⟨rest, hrest⟩ := ih outer hlt (Nat.lt_trans hlt hlive)
      exact ⟨id :: rest, .inside hscope henclosing hrest⟩

/-- Every way leads downwards. -/
theorem Chain.descends (h : Linked env.links) (hchain : env.Chain id ids) :
    ids.Pairwise (· > ·) ∧ ∀ i ∈ ids, i ≤ id := by
  induction hchain with
  | outermost => exact ⟨List.pairwise_singleton _ _, by simp⟩
  | @inside id outer scope rest hscope henclosing _ ih =>
    have hlt : outer < id := by
      apply h.lt_of_link
      rw [getElem?_links, hscope, Option.map_some, henclosing]
    have hrest : ∀ i ∈ rest, i < id := fun i hi => Nat.lt_of_le_of_lt (ih.2 i hi) hlt
    refine ⟨List.pairwise_cons.mpr ⟨hrest, ih.1⟩, List.forall_mem_cons.mpr ⟨Nat.le_refl id, ?_⟩⟩
    exact fun i hi => Nat.le_of_lt (hrest i hi)

/-- Resolving a name finds the first scope on the way outwards that binds it. -/
theorem Chain.resolve (h : Linked env.links) (hchain : env.Chain id ids) (name : String) :
    env.resolve id name =
      .ok (ids.findSome? fun i => (env.value? i name).map fun v => (i, v)) := by
  induction hchain with
  | outermost hscope henclosing =>
    rw [Environment.resolve, resolveIn_eq name (fun _ _ => h.lt_of_link) hscope, henclosing,
      List.findSome?_cons, value?_of_scope? hscope]
    cases Bindings.find? _ name <;> rfl
  | inside hscope henclosing _ ih =>
    rw [Environment.resolve, resolveIn_eq name (fun _ _ => h.lt_of_link) hscope, henclosing,
      List.findSome?_cons, value?_of_scope? hscope]
    cases Bindings.find? _ name with
    | some v => rfl
    | none => exact ih

theorem get_of_resolve_some {token : Token} {found : ScopeId × Value}
    (h : env.resolve id token.lexeme = .ok (some found)) : env.get id token = .ok found.2 := by
  rw [Environment.get, h]
  rfl

theorem get_of_resolve_none {token : Token} (h : env.resolve id token.lexeme = .ok none) :
    env.get id token = .error (.runtime (.undefinedVariable token)) := by
  rw [Environment.get, h]
  rfl

/-- Reading a variable reads the first scope on the way outwards that binds it. -/
theorem Chain.get (h : Linked env.links) (hchain : env.Chain id ids) (token : Token) :
    env.get id token = (ids.findSome? (env.value? · token.lexeme)).elim
      (.error (.runtime (.undefinedVariable token))) .ok := by
  have hvalue : ids.findSome? (env.value? · token.lexeme) = (ids.findSome? fun i =>
      (env.value? i token.lexeme).map fun v => (i, v)).map Prod.snd := by
    rw [List.map_findSome?]
    congr 1
    funext i
    rw [Function.comp_apply, Option.map_map]
    exact Option.map_id'.symm
  rw [Environment.get, hchain.resolve h, hvalue]
  cases ids.findSome? fun i => (env.value? i token.lexeme).map fun v => (i, v) <;> rfl

theorem resolve_eq_some_iff (h : Linked env.links) (hlive : id < env.depth) {owner : ScopeId}
    {v : Value} : env.resolve id name = .ok (some (owner, v)) ↔
      env.Reaches id name owner ∧ env.value? owner name = some v := by
  constructor
  · obtain ⟨ids, hchain⟩ := exists_chain h hlive
    rw [hchain.resolve h, Except.ok.injEq, List.findSome?_eq_some_iff]
    rintro ⟨before, i, after, rfl, hvalue, hbefore⟩
    obtain ⟨w, hw, ⟨⟩⟩ := Option.map_eq_some_iff.mp hvalue
    exact ⟨⟨before, after, hchain, fun inner hmem => Option.map_eq_none_iff.mp (hbefore inner hmem)⟩,
      hw⟩
  · rintro ⟨⟨before, after, hchain, hbefore⟩, hvalue⟩
    rw [hchain.resolve h, Except.ok.injEq, List.findSome?_eq_some_iff]
    exact ⟨before, owner, after, rfl, by rw [hvalue, Option.map_some],
      fun inner hmem => Option.map_eq_none_iff.mpr (hbefore inner hmem)⟩

end Ways

section Operations
variable {env after : Environment} {id : ScopeId} {name : String} {value : Value}

theorem scope?_push (env : Environment) (outer id : ScopeId) :
    (env.push outer).2.scope? id =
      if id = env.depth then some ⟨[], some outer⟩ else env.scope? id :=
  scope?_cons _ _ _

theorem scope?_release (hid : id ≠ ScopeId.global) (i : ScopeId) :
    (env.release id).scope? i = if i < id then env.scope? i else none := by
  rw [release, if_neg hid, scope?, scope?, depth, ← List.take_reverse, List.getElem?_take]

private theorem scope?_of_updateIn {change : Bindings → Bindings} {scopes changed : List Scope}
    (h : updateIn change scopes id = .ok changed) : changed.length = scopes.length ∧
      ∀ i, scope? ⟨changed⟩ i =
        if i = id then (scope? ⟨scopes⟩ i).map fun s => { s with bindings := change s.bindings }
        else scope? ⟨scopes⟩ i := by
  induction scopes generalizing changed with
  | nil => cases h
  | cons top below ih =>
    rw [updateIn] at h
    split at h
    · rename_i hid
      cases h
      refine ⟨rfl, fun i => ?_⟩
      rw [scope?_cons, scope?_cons, hid]
      split <;> rfl
    · rename_i hid
      cases hbelow : updateIn change below id with
      | error abort =>
        rw [hbelow] at h
        cases h
      | ok rest =>
        rw [hbelow] at h
        cases h
        obtain ⟨hlength, hrest⟩ := ih hbelow
        refine ⟨congrArg (· + 1) hlength, fun i => ?_⟩
        rw [scope?_cons, scope?_cons, hlength, hrest]
        split
        · rename_i hi
          rw [if_neg (hi.trans_ne (Ne.symm hid))]
        · rfl

/-- Binding a name in a scope changes that scope alone. -/
theorem scope?_of_define (h : env.define id name value = .ok after) (i : ScopeId) :
    after.scope? i =
      if i = id then (env.scope? i).map fun s => { s with bindings := s.bindings.set name value }
      else env.scope? i := by
  cases hupdate : updateIn (·.set name value) env.scopes id with
  | error abort =>
    rw [define, hupdate] at h
    cases h
  | ok scopes =>
    rw [define, hupdate] at h
    cases h
    exact (scope?_of_updateIn hupdate).2 i

theorem links_of_define (hlive : id < env.depth) (h : env.define id name value = .ok after) :
    after.links = env.links := by
  obtain ⟨found, hfound, hlinks⟩ := define_live hlive name value
  cases hfound.symm.trans h
  exact hlinks

theorem value?_of_define (h : env.define id name value = .ok after) (hlive : id < env.depth) :
    after.value? id name = some value := by
  obtain ⟨scope, hscope⟩ := lt_depth_iff.mp hlive
  rw [value?, scope?_of_define h, if_pos rfl, hscope]
  exact scope.bindings.find?_set_self name value

theorem value?_of_define_of_ne (h : env.define id name value = .ok after) {i : ScopeId}
    {other : String} (hne : i ≠ id ∨ other ≠ name) : after.value? i other = env.value? i other := by
  rw [value?, value?, scope?_of_define h]
  split
  · rename_i hid
    have hname : other ≠ name := hne.resolve_left fun hi => hi hid
    cases env.scope? i with
    | none => rfl
    | some scope => exact scope.bindings.find?_set_of_ne value hname
  · rfl

end Operations

end BlockScript.Environment
