import BlockScript.Proofs.Scope.Histories

/-!
Reading what was written. A write to one scope of a tree is seen from the scopes whose way outwards
reaches that scope before any other that binds the name, and from nowhere else.
-/
namespace BlockScript.Environment

section Lists
variable {α β : Type} {f g : α → Option β} {a : α} {b : β} {before after items : List α}

/-- A change at one item is found where the items before it give nothing. -/
private theorem findSome?_of_reached (hchanged : g a = some b)
    (hkept : ∀ item, item ≠ a → g item = f item) (hbefore : ∀ item ∈ before, f item = none) :
    (before ++ a :: after).findSome? g = some b := by
  induction before with
  | nil => rw [List.nil_append, List.findSome?_cons_of_isSome (by rw [hchanged]; rfl), hchanged]
  | cons item rest ih =>
    obtain ⟨hitem, hrest⟩ := List.forall_mem_cons.mp hbefore
    rw [List.cons_append, List.findSome?_cons, ih hrest]
    by_cases hsame : item = a
    · rw [hsame, hchanged]
    · rw [hkept item hsame, hitem]

/-- A change at one item is not found where the search does not come to that item. -/
private theorem findSome?_of_not_reached (hkept : ∀ item, item ≠ a → g item = f item)
    (hmissed : ¬ ∃ before after, items = before ++ a :: after ∧ ∀ item ∈ before, f item = none) :
    items.findSome? g = items.findSome? f := by
  induction items with
  | nil => rfl
  | cons item rest ih =>
    have hne : item ≠ a := by
      rintro rfl
      exact hmissed ⟨[], rest, rfl, by simp⟩
    rw [List.findSome?_cons, List.findSome?_cons, hkept item hne]
    cases hitem : f item with
    | some b => rfl
    | none =>
      apply ih
      rintro ⟨before, after, rfl, hbefore⟩
      exact hmissed ⟨item :: before, after, rfl, List.forall_mem_cons.mpr ⟨hitem, hbefore⟩⟩

end Lists

section Reading
variable {env after : Environment} {id : ScopeId} {token : Token} {name : String}
  {value : Value}

/-- A variable is read in the scope that its name resolves to. -/
theorem get_eq_ok_iff (h : Linked env.links) (hlive : id < env.depth) :
    env.get id token = .ok value ↔ ∃ owner, env.ResolvesTo id token.lexeme owner ∧
      env.value? owner token.lexeme = some value := by
  constructor
  · obtain ⟨ids, hchain⟩ := exists_chain h hlive
    rw [hchain.get h]
    cases hfound : ids.findSome? (env.value? · token.lexeme) with
    | none => exact fun hget => nomatch hget
    | some w =>
      rintro ⟨⟩
      obtain ⟨before, owner, after, rfl, howner, hbefore⟩ := List.findSome?_eq_some_iff.mp hfound
      exact ⟨owner, ⟨⟨before, after, hchain, hbefore⟩, by simp [howner]⟩, howner⟩
  · rintro ⟨owner, ⟨⟨before, after, hchain, hbefore⟩, -⟩, howner⟩
    rw [hchain.get h, List.findSome?_eq_some_iff.mpr ⟨before, owner, after, rfl, howner, hbefore⟩]
    rfl

/-- Reading fails where no scope on the way outwards binds the name. -/
theorem get_eq_unbound_iff (h : Linked env.links) (hlive : id < env.depth) :
    env.get id token = .error (.runtime (.undefinedVariable token)) ↔
      ∃ ids, env.Chain id ids ∧ ∀ i ∈ ids, env.value? i token.lexeme = none := by
  constructor
  · obtain ⟨ids, hchain⟩ := exists_chain h hlive
    rw [hchain.get h]
    cases hfound : ids.findSome? (env.value? · token.lexeme) with
    | none => exact fun _ => ⟨ids, hchain, List.findSome?_eq_none_iff.mp hfound⟩
    | some w => exact fun hget => nomatch hget
  · rintro ⟨ids, hchain, hunbound⟩
    rw [hchain.get h, List.findSome?_eq_none_iff.mpr hunbound]
    rfl

section Define
variable (h : Linked env.links) (hlive : id < env.depth)
  (hdefine : env.define id name value = .ok after)
include h hlive hdefine

/-- A new value is read from every scope that reaches the scope written to. -/
theorem get_of_define (hname : token.lexeme = name) (hreaches : env.Reaches e name id) :
    after.get e token = .ok value := by
  subst hname
  obtain ⟨before, rest, hchain, hbefore⟩ := hreaches
  have hlinks := links_of_define hlive hdefine
  have hkept : ∀ i, i ≠ id → after.value? i token.lexeme = env.value? i token.lexeme :=
    fun i hi => value?_of_define_of_ne hdefine (.inl hi)
  have hread : (before ++ id :: rest).findSome? (after.value? · token.lexeme) = some value :=
    findSome?_of_reached (value?_of_define hdefine hlive) hkept hbefore
  rw [(hchain.of_links hlinks).get (hlinks ▸ h), hread]
  rfl

/-- From elsewhere, and under another name, the old value is read. -/
theorem get_of_define_elsewhere (he : e < env.depth)
    (hmissed : ¬ (token.lexeme = name ∧ env.Reaches e name id)) :
    after.get e token = env.get e token := by
  obtain ⟨ids, hchain⟩ := exists_chain h he
  have hlinks := links_of_define hlive hdefine
  rw [(hchain.of_links hlinks).get (hlinks ▸ h), hchain.get h]
  congr 1
  by_cases hname : token.lexeme = name
  · subst hname
    apply findSome?_of_not_reached fun i hi => value?_of_define_of_ne hdefine (.inl hi)
    rintro ⟨before, rest, rfl, hbefore⟩
    exact hmissed ⟨rfl, before, rest, hchain, hbefore⟩
  · congr 1
    funext i
    exact value?_of_define_of_ne hdefine (.inr hname)

end Define

private theorem depth_of_links (hlinks : after.links = env.links) : after.depth = env.depth := by
  rw [← length_links, hlinks, length_links]

/-- A name resolves to at most one scope. -/
theorem ResolvesTo.unique {owner other : ScopeId} (h : Linked env.links) (hlive : id < env.depth)
    (howner : env.ResolvesTo id name owner) (hother : env.ResolvesTo id name other) :
    owner = other := by
  obtain ⟨v, hv⟩ := Option.ne_none_iff_exists'.mp howner.2
  obtain ⟨w, hw⟩ := Option.ne_none_iff_exists'.mp hother.2
  have hfound := (resolve_eq_some_iff h hlive).mpr ⟨howner.1, hv⟩
  rw [(resolve_eq_some_iff h hlive).mpr ⟨hother.1, hw⟩] at hfound
  cases hfound
  rfl

end Reading

/-- Reading over writing. In every environment that operations on live scopes lead to, a variable is
read in the first scope on the way outwards that binds its name, and is undefined if there is none.
An assignment succeeds where reading does and answers the value; then that value is read wherever the
name resolved to the same scope, and elsewhere what was read before. One that fails changes nothing.
A declaration is read from each scope that reaches its scope before another binding of the name, and
elsewhere what was read before. Neither adds or drops a scope. -/
theorem reads_over_writes {env : Environment} (hreachable : env.Reachable) {e e' : ScopeId}
    (he : e < env.depth) (he' : e' < env.depth) (x y : Token) (v : Value) :
    (∀ w, env.get e x = .ok w ↔
      ∃ owner, env.ResolvesTo e x.lexeme owner ∧ env.value? owner x.lexeme = some w) ∧
    (env.get e x = .error (.runtime (.undefinedVariable x)) ↔
      ∃ ids, env.Chain e ids ∧ ∀ id ∈ ids, env.value? id x.lexeme = none) ∧
    ((∃ after, (Operation.assign e x v).perform env = .ok (.value v) after) ↔
      ∃ w, env.get e x = .ok w) ∧
    (∀ answer after, (Operation.assign e x v).perform env = .ok answer after →
      answer = .value v ∧ after.depth = env.depth ∧
      ((y.lexeme = x.lexeme ∧
          ∃ owner, env.ResolvesTo e x.lexeme owner ∧ env.ResolvesTo e' x.lexeme owner) →
        after.get e' y = .ok v) ∧
      (¬ (y.lexeme = x.lexeme ∧
          ∃ owner, env.ResolvesTo e x.lexeme owner ∧ env.ResolvesTo e' x.lexeme owner) →
        after.get e' y = env.get e' y)) ∧
    (∀ abort after, (Operation.assign e x v).perform env = .error abort after →
      abort = .runtime (.undefinedVariable x) ∧ after = env) ∧
    ∃ after, (Operation.define e x.lexeme v).perform env = .ok .done after ∧
      after.depth = env.depth ∧
      ((y.lexeme = x.lexeme ∧ env.Reaches e' x.lexeme e) → after.get e' y = .ok v) ∧
      (¬ (y.lexeme = x.lexeme ∧ env.Reaches e' x.lexeme e) → after.get e' y = env.get e' y) := by
  have h := hreachable.linked
  refine ⟨fun w => get_eq_ok_iff h he, get_eq_unbound_iff h he, ?_, ?_, ?_, ?_⟩
  · rcases perform_assign h he x v with ⟨-, after, -, -, -, hget, hperform⟩ | ⟨hget, hperform⟩
    · exact ⟨fun _ => hget, fun _ => ⟨after, hperform⟩⟩
    · simp [hget, hperform]
  · intro answer after hanswer
    rcases perform_assign h he x v with
      ⟨owner, after', howner, hdefine, hlinks, -, hperform⟩ | ⟨-, hperform⟩
    · rw [hperform] at hanswer
      cases hanswer
      have hlive := lt_depth_of_value? howner.2
      refine ⟨rfl, depth_of_links hlinks, ?_, fun hmissed => ?_⟩
      · rintro ⟨hname, other, hother, hresolves⟩
        obtain rfl := howner.unique h he hother
        exact get_of_define h hlive hdefine hname hresolves.1
      · apply get_of_define_elsewhere h hlive hdefine he'
        rintro ⟨hname, hreaches⟩
        exact hmissed ⟨hname, owner, howner, hreaches, howner.2⟩
    · rw [hperform] at hanswer
      cases hanswer
  · intro abort after hanswer
    rcases perform_assign h he x v with ⟨-, after', -, -, -, -, hperform⟩ | ⟨-, hperform⟩
    · rw [hperform] at hanswer
      cases hanswer
    · rw [hperform] at hanswer
      cases hanswer
      exact ⟨rfl, rfl⟩
  · obtain ⟨after, hdefine, hlinks, hperform⟩ := perform_define he x.lexeme v
    refine ⟨after, hperform, depth_of_links hlinks, ?_, ?_⟩
    · rintro ⟨hname, hreaches⟩
      exact get_of_define h he hdefine hname hreaches
    · exact get_of_define_elsewhere h he hdefine he'

/-- Two scopes inside the same one. What one of them assigns to a variable of the scope around them,
the other one reads. -/
theorem reads_over_writes_shared :
    let a : Token := ⟨.identifier, "a", .nil, 1⟩
    let ops : List Operation := [.push 0, .push 1, .push 1, .define 0 "a" (.string "global"),
      .define 1 "a" (.string "old"), .define 3 "b" .nil]
    let env : Environment :=
      ⟨[⟨[("b", .nil)], some 1⟩, ⟨[], some 1⟩, ⟨[("a", .string "old")], some 0⟩,
        ⟨[("a", .string "global")], none⟩]⟩
    History .empty ops env ∧ 2 < env.depth ∧ 3 < env.depth ∧
      (∀ abort after, (Operation.assign 2 a (.string "new")).perform env ≠ .error abort after) ∧
      ∀ answer after, (Operation.assign 2 a (.string "new")).perform env = .ok answer after →
        after.get 3 a = .ok (.string "new") := by
  intro a ops env
  have hops : History .empty ops env := by
    repeat' refine .cons (by decide) ?_
    exact .nil _
  have hsecond : (2 : ScopeId) < env.depth := by decide
  have hthird : (3 : ScopeId) < env.depth := by decide
  have howner : env.ResolvesTo 2 "a" 1 ∧ env.ResolvesTo 3 "a" 1 := by
    have hglobal : env.Chain 1 [1, 0] := .inside rfl rfl (.outermost rfl rfl)
    exact ⟨⟨⟨[2], [0], .inside rfl rfl hglobal, List.forall_mem_singleton.mpr rfl⟩, by decide⟩,
      ⟨⟨[3], [0], .inside rfl rfl hglobal, List.forall_mem_singleton.mpr rfl⟩, by decide⟩⟩
  obtain ⟨hread, -, hsucceeds, hassigned, -⟩ :=
    reads_over_writes ⟨ops, hops⟩ hsecond hthird a a (.string "new")
  refine ⟨hops, hsecond, hthird, ?_, fun answer after hanswer => ?_⟩
  · intro abort after herror
    obtain ⟨after', hok⟩ := hsucceeds.mpr ⟨.string "old", (hread _).mpr ⟨1, howner.1, rfl⟩⟩
    rw [hok] at herror
    cases herror
  · exact (hassigned answer after hanswer).2.2.1 ⟨rfl, 1, howner⟩

end BlockScript.Environment
