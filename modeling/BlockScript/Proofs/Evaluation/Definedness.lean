import BlockScript.Proofs.Evaluation.BigStep

/-!
Definedness of variables as a matter of the text alone. The steps of a program, in the order of
evaluation, are walked with a stack of name sets. As long as nothing stops the program, the sets are
the names that its blocks bind; so a variable is undefined where the walk does not find its name.
-/
namespace BlockScript

/-- The names bound in each open block, the innermost block first and the globals last. -/
abbrev NameStack := List (Finset String)

namespace NameStack

def Has (Γ : NameStack) (name : String) : Prop := ∃ names ∈ Γ, name ∈ names

instance (Γ : NameStack) (name : String) : Decidable (Γ.Has name) :=
  inferInstanceAs (Decidable (∃ names ∈ Γ, name ∈ names))

def declare (name : String) : NameStack → NameStack
  | [] => []
  | top :: below => insert name top :: below

end NameStack

/-- What evaluation does with names, and the operators that may refuse their operands. -/
inductive Step where
  | use (name : Token)
  | apply (operator : Token)
  | declare (name : Token)
  | enter
  | leave
deriving DecidableEq

/-- A name that no set has cannot be used. -/
def Step.walk (Γ : NameStack) : Step → Except Token NameStack
  | use name => if Γ.Has name.lexeme then .ok Γ else .error name
  | apply _ => .ok Γ
  | declare name => .ok (Γ.declare name.lexeme)
  | enter => .ok (∅ :: Γ)
  | leave => .ok Γ.tail

/-- The steps of an expression. Operands come before their operator, left before right, and the
value of an assignment before its target. -/
def Expr.steps : Expr → List Step
  | literal _ => []
  | name token => [.use token]
  | group inner => inner.steps
  | unary operator operand => operand.steps ++ [.apply operator]
  | binary left operator right => left.steps ++ right.steps ++ [.apply operator]
  | assign target value => value.steps ++ [.use target]

mutual

def Stmt.steps : Stmt → List Step
  | .evaluate expression => expression.steps
  | .print expression => expression.steps
  | .declare name none => [.declare name]
  | .declare name (some initial) => initial.steps ++ [.declare name]
  | .block body => [.enter] ++ Stmt.allSteps body ++ [.leave]

/-- The steps of a program. An initializer comes before the name it is for, and a block is between
entering and leaving a set. -/
def Stmt.allSteps : List Stmt → List Step
  | [] => []
  | first :: rest => first.steps ++ Stmt.allSteps rest

end

namespace NameStack
variable {Γ Γ' Γ'' : NameStack} {steps more : List Step} {error : Option RuntimeError}

/-- Walks steps from a stack of name sets up to the first name that is in none of them. -/
def walk (Γ : NameStack) (steps : List Step) : Except Token NameStack := steps.foldlM Step.walk Γ

private theorem walk_append_of_ok (h : Γ.walk steps = .ok Γ') :
    Γ.walk (steps ++ more) = Γ'.walk more := by
  rw [walk, List.foldlM_append]
  change Γ.walk steps >>= _ = _
  rw [h]
  rfl

private theorem walk_missing {t : Token} (h : Γ.walk steps = .ok Γ')
    (hmissing : ¬ Γ'.Has t.lexeme) :
    Γ.walk (steps ++ .use t :: more) = .error t := by
  rw [walk_append_of_ok h, walk, List.foldlM_cons, Step.walk, if_neg hmissing]
  rfl

/-- A walk that ends early ends at a name that no set has. -/
private theorem exists_use_of_walk {t : Token} (h : Γ.walk steps = .error t) :
    ∃ before after Γ', steps = before ++ .use t :: after ∧ Γ.walk before = .ok Γ' ∧
      ¬ Γ'.Has t.lexeme := by
  induction steps generalizing Γ with
  | nil => cases h
  | cons step rest ih =>
    rw [walk, List.foldlM_cons] at h
    cases hstep : step.walk Γ with
    | error missing =>
      rw [hstep] at h
      cases h
      cases step with
      | use name =>
        simp only [Step.walk] at hstep
        split at hstep
        · cases hstep
        · next hmissing =>
          cases hstep
          exact ⟨[], rest, Γ, rfl, rfl, hmissing⟩
      | apply | declare | enter | leave => cases hstep
    | ok next =>
      rw [hstep] at h
      obtain ⟨before, after, Γ', rfl, hbefore, hmissing⟩ := ih h
      refine ⟨step :: before, after, Γ', rfl, ?_, hmissing⟩
      rw [walk, List.foldlM_cons, hstep]
      exact hbefore

/-- The errors that a step may raise: an undefined variable where no set has its name, and a type
error where an operator is applied. -/
inductive Raises (Γ : NameStack) : Step → RuntimeError → Prop
  | undefined {t : Token} (missing : ¬ Γ.Has t.lexeme) : Raises Γ (.use t) (.undefinedVariable t)
  | type (operator : Token) (fault : TypeFault) : Raises Γ (.apply operator) (.type fault operator)

/-- The steps are walked to their end, or up to one that raises the error. -/
def Passes (Γ : NameStack) (steps : List Step) : Option RuntimeError → NameStack → Prop
  | none, Γ' => Γ.walk steps = .ok Γ'
  | some error, _ => ∃ before step after Γ', steps = before ++ step :: after ∧
      Γ.walk before = .ok Γ' ∧ Γ'.Raises step error

namespace Passes

theorem append (h : Γ.Passes steps none Γ') (h' : Γ'.Passes more error Γ'') :
    Γ.Passes (steps ++ more) error Γ'' := by
  cases error with
  | none => exact (walk_append_of_ok h).trans h'
  | some error =>
    obtain ⟨before, step, after, Δ, rfl, hbefore, hraises⟩ := h'
    refine ⟨steps ++ before, step, after, Δ, by rw [List.append_assoc], ?_, hraises⟩
    rw [walk_append_of_ok h, hbefore]

theorem stopped {error : RuntimeError} (h : Γ.Passes steps (some error) Γ') :
    Γ.Passes (steps ++ more) (some error) Γ' := by
  obtain ⟨before, step, after, Δ, rfl, hbefore, hraises⟩ := h
  exact ⟨before, step, after ++ more, Δ, by rw [List.append_assoc]; rfl, hbefore, hraises⟩

theorem use {t : Token} (h : Γ.Has t.lexeme) : Γ.Passes [.use t] none Γ := by
  change Γ.walk [.use t] = .ok Γ
  rw [walk, List.foldlM_cons, Step.walk, if_pos h]
  rfl

theorem unused {t : Token} (h : ¬ Γ.Has t.lexeme) :
    Γ.Passes [.use t] (some (.undefinedVariable t)) Γ :=
  ⟨[], .use t, [], Γ, rfl, rfl, .undefined h⟩

theorem declare (name : Token) : Γ.Passes [.declare name] none (Γ.declare name.lexeme) := rfl

/-- What a block declares is forgotten behind it. -/
theorem block {names : Finset String} (h : Passes (∅ :: Γ) steps error (names :: Γ')) :
    Γ.Passes ([.enter] ++ steps ++ [.leave]) error Γ' := by
  have hentered : Γ.Passes [.enter] none (∅ :: Γ) := rfl
  have hinside := hentered.append h
  cases error with
  | none => exact hinside.append rfl
  | some error => exact hinside.stopped

/-- Where all names are found, no variable is undefined. -/
theorem ne_undefined (h : Γ.Passes steps error Γ') (hwalk : Γ.walk steps = .ok Γ'') (t : Token) :
    error ≠ some (.undefinedVariable t) := by
  rintro rfl
  obtain ⟨before, step, after, Δ, rfl, hbefore, hraises⟩ := h
  cases hraises with
  | undefined hmissing => cases hwalk.symm.trans (walk_missing hbefore hmissing)

/-- Where a name is not found, its variable is undefined or an operator was refused before. -/
theorem stopped_of_walk {t : Token} (h : Γ.Passes steps error Γ')
    (hwalk : Γ.walk steps = .error t) : ∃ before after Δ, steps = before ++ .use t :: after ∧
      Γ.walk before = .ok Δ ∧ ¬ Δ.Has t.lexeme ∧
      (error = some (.undefinedVariable t) ∨ ∃ earlier operator later fault,
        before = earlier ++ .apply operator :: later ∧ error = some (.type fault operator)) := by
  obtain ⟨before, after, Δ, hsteps, hbefore, hmissing⟩ := exists_use_of_walk hwalk
  refine ⟨before, after, Δ, hsteps, hbefore, hmissing, ?_⟩
  cases error with
  | none => cases hwalk.symm.trans h
  | some error =>
    obtain ⟨passed, step, rest, Δ', hsplit, hpassed, hraises⟩ := h
    cases hraises with
    | undefined hmissing' =>
      rw [hsplit, walk_missing hpassed hmissing'] at hwalk
      cases hwalk
      exact .inl rfl
    | type operator fault =>
      -- An operator behind the missing name is not reached by the walk.
      rcases List.append_eq_append_iff.mp (hsplit.symm.trans hsteps) with
        ⟨between, hbetween, hrest⟩ | ⟨between, hbetween, hrest⟩
      · cases between with
        | nil => cases hrest
        | cons first later =>
          cases hrest
          exact .inr ⟨passed, operator, later, fault, hbetween, rfl⟩
      · cases between with
        | nil => cases hrest
        | cons first later =>
          cases hrest
          rw [hbetween, walk_missing hbefore hmissing] at hpassed
          cases hpassed

end Passes
end NameStack

/-- The names that the maps on the stack bind. -/
def Frames.names (σ : Frames) : NameStack := σ.map Finmap.keys

/-- What stopped an evaluation. -/
def stoppedBy : Except RuntimeError Value → Option RuntimeError
  | .ok _ => none
  | .error error => some error

private theorem NameStack.Passes.apply {Γ Γ' : NameStack} {steps : List Step} (operator : Token)
    (result : Except TypeFault Value) (h : Γ.Passes steps none Γ') :
    Γ.Passes (steps ++ [.apply operator])
      (stoppedBy (result.mapError (RuntimeError.type · operator))) Γ' := by
  refine h.append ?_
  cases result with
  | ok value => exact rfl
  | error fault => exact ⟨[], .apply operator, [], Γ', rfl, rfl, .type operator fault⟩

namespace Frames
variable {σ τ : Frames} {name : String}

private theorem has_names_iff : σ.names.Has name ↔ σ.lookup name ≠ none := by
  induction σ with
  | nil => simp [names, NameStack.Has, lookup]
  | cons top below ih =>
    have hcons : (names (top :: below)).Has name ↔ name ∈ top ∨ (names below).Has name := by
      simp [names, NameStack.Has, Finmap.mem_keys]
    rw [hcons, ih]
    by_cases hmem : name ∈ top
    · obtain ⟨value, hvalue⟩ := Finmap.mem_iff.mp hmem
      simp [hmem, lookup_of_some hvalue]
    · simp [hmem, lookup_of_none (Finmap.lookup_eq_none.mpr hmem)]

theorem keys_insert (value : Value) (frame : Frame) :
    (Finmap.insert name value frame).keys = insert name frame.keys := by
  ext other
  simp [Finmap.mem_keys, Finmap.mem_insert]

private theorem names_insert (value : Value) (top : Frame) (below : Frames) :
    names (Finmap.insert name value top :: below) = (names (top :: below)).declare name :=
  congrArg (· :: names below) (keys_insert value top)

/-- Overwriting binds no name. -/
private theorem names_assign? {value : Value} (h : σ.assign? name value = some τ) :
    τ.names = σ.names := by
  induction σ generalizing τ with
  | nil => cases h
  | cons top below ih =>
    by_cases hmem : name ∈ top
    · rw [assign?_of_mem hmem] at h
      cases h
      have hkeys : insert name top.keys = top.keys :=
        Finset.insert_eq_of_mem (Finmap.mem_keys.mpr hmem)
      simp [names, keys_insert, hkeys]
    · rw [assign?_of_not_mem hmem, Option.map_eq_some_iff] at h
      obtain ⟨after, hafter, rfl⟩ := h
      simpa [names] using ih hafter

end Frames

/-- Evaluating an expression is walking its steps. -/
theorem Evaluates.passes {σ σ' : Frames} {e : Expr} {result : Except RuntimeError Value}
    (h : Evaluates σ e result σ') : σ.names.Passes e.steps (stoppedBy result) σ'.names := by
  induction h with
  | literal => exact rfl
  | name bound => exact .use (Frames.has_names_iff.mpr (by simp [bound]))
  | nameUnbound unbound => exact .unused (mt Frames.has_names_iff.mp (by simp [unbound]))
  | group _ ih => exact ih
  | unary _ ih => exact ih.apply _ _
  | binary _ _ ihLeft ihRight => exact (ihLeft.append ihRight).apply _ _
  | unaryStopped _ ih | assignStopped _ ih => exact ih.stopped
  | leftStopped _ ih => exact ih.stopped.stopped
  | rightStopped _ _ ihLeft ihRight => exact (ihLeft.append ihRight).stopped
  | @assign σ σ' σ'' target source value _ bound ih =>
    have hhas : σ'.names.Has target.lexeme := by
      rw [Frames.has_names_iff, Ne, ← Frames.assign?_eq_none_iff target.lexeme value, bound]
      exact Option.some_ne_none σ''
    rw [Frames.names_assign? bound]
    exact ih.append (.use hhas)
  | assignUnbound _ unbound ih =>
    have hmissing := (Frames.assign?_eq_none_iff _ _ _).mp unbound
    exact ih.append (.unused (mt Frames.has_names_iff.mp (by simp [hmissing])))

mutual

/-- Executing a statement is walking its steps. -/
theorem Executes.passes {σ σ' : Frames} {s : Stmt} {lines : List String}
    {error : Option RuntimeError} (h : Executes σ s lines error σ') :
    σ.names.Passes s.steps error σ'.names := by
  cases h with
  | evaluate evaluated | print evaluated => exact evaluated.passes
  | evaluateStopped stopped | printStopped stopped => exact stopped.passes
  | declareNil =>
    rw [Frames.names_insert]
    exact .declare _
  | declare evaluated =>
    rw [Frames.names_insert]
    exact evaluated.passes.append (.declare _)
  | declareStopped stopped => exact stopped.passes.stopped
  | block executed => exact .block executed.passes

/-- Executing a program is walking its steps. -/
theorem ExecutesAll.passes {σ σ' : Frames} {program : List Stmt} {lines : List String}
    {error : Option RuntimeError} (h : ExecutesAll σ program lines error σ') :
    σ.names.Passes (Stmt.allSteps program) error σ'.names := by
  cases h with
  | done => exact rfl
  | next executed continued => exact executed.passes.append continued.passes
  | stopped executed => exact executed.passes.stopped

end

end BlockScript
