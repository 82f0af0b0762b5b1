import BlockScript.Scope.Environment
import Mathlib.Data.Finmap

/-!
The open blocks as a stack of finite maps, and the effect on it of every operation on linked
scopes. Where each scope is linked to the next one on the stack, following the links from the
newest scope is walking down the stack.
-/
namespace BlockScript

/-- The variables of one block. -/
abbrev Frame := Finmap fun _ : String => Value

/-- The variables of the open blocks, the innermost block first and the globals last. -/
abbrev Frames := List Frame

namespace Frames

/-- The value of a name in the topmost map that has it. -/
def lookup (name : String) : Frames → Option Value
  | [] => none
  | top :: below =>
    match Finmap.lookup name top with
    | some value => some value
    | none => lookup name below

/-- Overwrites a name in the topmost map that has it. -/
def assign? (name : String) (value : Value) : Frames → Option Frames
  | [] => none
  | top :: below =>
    if name ∈ top then some (Finmap.insert name value top :: below)
    else (assign? name value below).map (top :: ·)

theorem lookup_of_some {name : String} {top : Frame} {value : Value}
    (h : Finmap.lookup name top = some value) (below : Frames) :
    lookup name (top :: below) = some value := by
  rw [lookup, h]

theorem lookup_of_none {name : String} {top : Frame} (h : Finmap.lookup name top = none)
    (below : Frames) : lookup name (top :: below) = lookup name below := by
  rw [lookup, h]

theorem assign?_of_mem {name : String} {top : Frame} (h : name ∈ top) (value : Value)
    (below : Frames) :
    assign? name value (top :: below) = some (Finmap.insert name value top :: below) :=
  if_pos h

theorem assign?_of_not_mem {name : String} {top : Frame} (h : name ∉ top) (value : Value)
    (below : Frames) :
    assign? name value (top :: below) = (assign? name value below).map (top :: ·) :=
  if_neg h

/-- Reading and overwriting agree on which names are bound. -/
theorem assign?_eq_none_iff (name : String) (value : Value) (σ : Frames) :
    σ.assign? name value = none ↔ σ.lookup name = none := by
  induction σ with
  | nil => simp [assign?, lookup]
  | cons top below ih =>
    by_cases h : name ∈ top
    · obtain ⟨old, hold⟩ := Finmap.mem_iff.mp h
      simp [assign?_of_mem h, lookup_of_some hold]
    · simp [assign?_of_not_mem h, lookup_of_none (Finmap.lookup_eq_none.mpr h), ih]

end Frames

namespace Bindings

/-- The finite map that a list of pairs stands for. -/
def toFrame : Bindings → Frame
  | [] => ∅
  | (name, value) :: rest => Finmap.insert name value (toFrame rest)

theorem lookup_toFrame (b : Bindings) (name : String) :
    Finmap.lookup name b.toFrame = b.find? name := by
  induction b with
  | nil => rfl
  | cons pair rest ih =>
    obtain ⟨other, value⟩ := pair
    by_cases h : other = name
    · subst h
      rw [toFrame, Finmap.lookup_insert, find?, if_pos rfl]
    · rw [toFrame, Finmap.lookup_insert_of_ne _ (Ne.symm h), ih, find?, if_neg h]

theorem toFrame_set (b : Bindings) (name : String) (value : Value) :
    (b.set name value).toFrame = Finmap.insert name value b.toFrame := by
  apply Finmap.ext_lookup
  intro other
  by_cases h : other = name
  · subst h
    rw [lookup_toFrame, find?_set_self, Finmap.lookup_insert]
  · rw [lookup_toFrame, find?_set_of_ne b value h, Finmap.lookup_insert_of_ne _ h, lookup_toFrame]

end Bindings

/-- The finite maps of the scopes on a stack. -/
def Scope.frames (scopes : List Scope) : Frames := scopes.map fun scope => scope.bindings.toFrame

private theorem Scope.frames_cons (scope : Scope) (below : List Scope) :
    frames (scope :: below) = scope.bindings.toFrame :: frames below := rfl

section
variable {scope : Scope} {name : String}

/-- A name that the newest scope binds is read there. -/
private theorem Scope.lookup_frames_of_some {value : Value}
    (h : scope.bindings.find? name = some value)
    (below : List Scope) : (frames (scope :: below)).lookup name = some value :=
  Frames.lookup_of_some ((scope.bindings.lookup_toFrame name).trans h) _

/-- Any other name is read below. -/
private theorem Scope.lookup_frames_of_none (h : scope.bindings.find? name = none)
    (below : List Scope) :
    (frames (scope :: below)).lookup name = (frames below).lookup name :=
  Frames.lookup_of_none ((scope.bindings.lookup_toFrame name).trans h) _

end

/-- Each scope is linked to the one below it on the stack, and the last scope to none. -/
inductive Nested : List Scope → Prop
  | global (bindings : Bindings) : Nested [⟨bindings, none⟩]
  | block (bindings : Bindings) {outer : Scope} {below : List Scope}
      (inside : Nested (outer :: below)) : Nested (⟨bindings, some below.length⟩ :: outer :: below)

/-- The scope with an index binds a name to a value, and overwriting the name there is
overwriting it in the topmost map that has it. -/
structure Owner (name : String) (scopes : List Scope) (id : ScopeId) (value : Value) : Prop where
  live : id < scopes.length
  lookup : (Scope.frames scopes).lookup name = some value
  overwrite (new : Value) : ∃ after,
    Environment.updateIn (·.set name new) scopes id = .ok after ∧ Nested after ∧
      after.length = scopes.length ∧
      (Scope.frames scopes).assign? name new = some (Scope.frames after)

namespace Nested

/-- The links of a nest do not depend on what its scopes bind. -/
private theorem rebind {scope : Scope} {below : List Scope} (h : Nested (scope :: below))
    (bindings : Bindings) : Nested ({ scope with bindings } :: below) := by
  cases h with
  | global => exact .global bindings
  | block _ inside => exact .block bindings inside

private theorem tail {scope outer : Scope} {below : List Scope}
    (h : Nested (scope :: outer :: below)) :
    Nested (outer :: below) := by
  cases h with
  | block _ inside => exact inside

end Nested

/-- The newest scope owns the names it binds. -/
private theorem Owner.top {name : String} {scope : Scope} {below : List Scope} {value : Value}
    (h : Nested (scope :: below)) (found : scope.bindings.find? name = some value) :
    Owner name (scope :: below) below.length value where
  live := Nat.lt_succ_self _
  lookup := Scope.lookup_frames_of_some found below
  overwrite new := by
    have bound := Finmap.mem_of_lookup_eq_some ((scope.bindings.lookup_toFrame name).trans found)
    refine ⟨{ scope with bindings := scope.bindings.set name new } :: below, ?_, h.rebind _, rfl,
      ?_⟩
    · rw [Environment.updateIn, if_pos rfl]
    · rw [Scope.frames_cons, Frames.assign?_of_mem bound, Scope.frames_cons, Bindings.toFrame_set]

/-- An owner keeps its names under a newer scope that does not bind them. -/
private theorem Owner.under {name : String} {bindings : Bindings} {outer : Scope}
    {below : List Scope} {id : ScopeId} {value : Value} (h : Owner name (outer :: below) id value)
    (missing : bindings.find? name = none) :
    Owner name (⟨bindings, some below.length⟩ :: outer :: below) id value where
  live := Nat.lt_succ_of_lt h.live
  lookup := (Scope.lookup_frames_of_none missing _).trans h.lookup
  overwrite new := by
    obtain ⟨after, updated, nested, length, assigned⟩ := h.overwrite new
    have unbound := Finmap.lookup_eq_none.mp ((bindings.lookup_toFrame name).trans missing)
    refine ⟨⟨bindings, some below.length⟩ :: after, ?_, ?_, ?_, ?_⟩
    · rw [Environment.updateIn, if_neg (Nat.ne_of_lt h.live), updated]
      rfl
    · cases after with
      | nil => cases nested
      | cons first rest =>
        rw [← Nat.succ.inj length]
        exact .block bindings nested
    · rw [List.length_cons, length]
      rfl
    · rw [Scope.frames_cons, Frames.assign?_of_not_mem unbound, assigned]
      rfl

/-- Following the links from the newest scope finds the owner of every name that a map on the
stack has, and finds no scope for the others. -/
private theorem Nested.resolveIn {scope : Scope} {below : List Scope} (h : Nested (scope :: below))
    (name : String) :
    (∃ id value,
      Environment.resolveIn name (scope :: below) below.length = .ok (some (id, value)) ∧
        Owner name (scope :: below) id value) ∨
    (Environment.resolveIn name (scope :: below) below.length = .ok none ∧
      (Scope.frames (scope :: below)).lookup name = none) := by
  generalize hs : scope :: below = scopes at h
  induction h generalizing scope below with
  | global bindings =>
    cases hs
    have nest := Nested.global bindings
    rw [Environment.resolveIn, if_pos rfl]
    cases found : bindings.find? name with
    | some value => exact .inl ⟨_, value, rfl, .top nest found⟩
    | none => exact .inr ⟨rfl, Scope.lookup_frames_of_none found []⟩
  | @block bindings outer rest inside ih =>
    cases hs
    have nest := Nested.block bindings inside
    rw [Environment.resolveIn, if_pos rfl]
    cases found : bindings.find? name with
    | some value => exact .inl ⟨_, value, rfl, .top nest found⟩
    | none =>
      obtain ⟨id, value, resolved, owner⟩ | ⟨resolved, missing⟩ := ih rfl
      · exact .inl ⟨id, value, resolved, owner.under found⟩
      · exact .inr ⟨resolved, (Scope.lookup_frames_of_none found _).trans missing⟩

namespace Environment

/-- The stack of finite maps that an environment stands for. -/
def frames (env : Environment) : Frames := Scope.frames env.scopes

/-- The scope is the newest one of a nest. -/
structure Innermost (env : Environment) (here : ScopeId) : Prop where
  nested : Nested env.scopes
  depth : env.depth = here + 1

namespace Innermost
variable {env : Environment} {here : ScopeId}

theorem empty : Innermost .empty .global := ⟨.global [], rfl⟩

/-- What lies on the stack where a scope is the innermost one. -/
theorem exists_top (h : env.Innermost here) :
    ∃ scope below, env.scopes = scope :: below ∧ here = below.length ∧ Nested (scope :: below) := by
  obtain ⟨scopes⟩ := env
  cases scopes with
  | nil => cases h.nested
  | cons scope below => exact ⟨scope, below, rfl, (Nat.succ.inj h.depth).symm, h.nested⟩

/-- A name resolves to its owner, or to nothing where no map on the stack has it. -/
theorem resolve (h : env.Innermost here) (name : String) :
    (∃ id value, env.resolve here name = .ok (some (id, value)) ∧
      Owner name env.scopes id value) ∨
    (env.resolve here name = .ok none ∧ env.frames.lookup name = none) := by
  obtain ⟨scope, below, hs, rfl, nest⟩ := h.exists_top
  rw [Environment.resolve, frames, hs]
  exact nest.resolveIn name

/-- Reading a variable reads the topmost map that has it. -/
theorem get (h : env.Innermost here) (token : Token) :
    (∃ value, env.get here token = .ok value ∧ env.frames.lookup token.lexeme = some value) ∨
    (env.get here token = .error (.runtime (.undefinedVariable token)) ∧
      env.frames.lookup token.lexeme = none) := by
  obtain ⟨id, value, resolved, owner⟩ | ⟨resolved, missing⟩ := h.resolve token.lexeme
  · refine .inl ⟨value, ?_, owner.lookup⟩
    rw [Environment.get, resolved]
    rfl
  · refine .inr ⟨?_, missing⟩
    rw [Environment.get, resolved]
    rfl

/-- Assigning to a variable overwrites the topmost map that has it. -/
theorem assign (h : env.Innermost here) (token : Token) (value : Value) :
    (∃ after, env.assign here token value = .ok after ∧ after.Innermost here ∧
      env.frames.assign? token.lexeme value = some after.frames) ∨
    (env.assign here token value = .error (.runtime (.undefinedVariable token)) ∧
      env.frames.assign? token.lexeme value = none) := by
  obtain ⟨id, old, resolved, owner⟩ | ⟨resolved, missing⟩ := h.resolve token.lexeme
  · obtain ⟨after, updated, nested, length, assigned⟩ := owner.overwrite value
    refine .inl ⟨⟨after⟩, ?_, ⟨nested, length.trans h.depth⟩, assigned⟩
    rw [Environment.assign, resolved]
    change env.define id token.lexeme value = .ok ⟨after⟩
    rw [define, updated]
    rfl
  · refine .inr ⟨?_, (Frames.assign?_eq_none_iff _ _ _).mpr missing⟩
    rw [Environment.assign, resolved]
    rfl

/-- Declaring a variable writes the top map. -/
theorem define (h : env.Innermost here) (name : String) (value : Value) :
    ∃ after top below, env.define here name value = .ok after ∧ after.Innermost here ∧
      env.frames = top :: below ∧ after.frames = Finmap.insert name value top :: below := by
  obtain ⟨scope, below, hs, rfl, nest⟩ := h.exists_top
  refine ⟨⟨{ scope with bindings := scope.bindings.set name value } :: below⟩, _, _, ?_,
    ⟨nest.rebind _, rfl⟩, by rw [frames, hs, Scope.frames_cons], ?_⟩
  · rw [Environment.define, hs, updateIn, if_pos rfl]
    rfl
  · rw [frames, Scope.frames_cons, Bindings.toFrame_set]

/-- Entering a block puts an empty map on top. -/
theorem push (h : env.Innermost here) : ∃ inside,
    env.push here = (here + 1, inside) ∧ inside.Innermost (here + 1) ∧
      inside.frames = ∅ :: env.frames := by
  obtain ⟨scope, below, hs, rfl, nest⟩ := h.exists_top
  refine ⟨⟨⟨[], some below.length⟩ :: env.scopes⟩, ?_, ⟨?_, congrArg (· + 1) h.depth⟩, rfl⟩
  · rw [Environment.push, h.depth]
  · rw [hs]
    exact .block [] nest

/-- Leaving a block drops the top map. -/
theorem release (h : env.Innermost (here + 1)) :
    (env.release (here + 1)).Innermost here ∧
      ∃ top, env.frames = top :: (env.release (here + 1)).frames := by
  obtain ⟨scope, below, hs, hlen, nest⟩ := h.exists_top
  have inner : here + 1 ≠ ScopeId.global := Nat.succ_ne_zero here
  have released : env.release (here + 1) = ⟨below⟩ := by
    rw [Environment.release, if_neg inner, h.depth, Nat.add_sub_cancel_left, hs]
    rfl
  rw [released]
  refine ⟨⟨?_, hlen.symm⟩, scope.bindings.toFrame, by rw [frames, hs, Scope.frames_cons]; rfl⟩
  cases below with
  | nil => cases hlen
  | cons outer rest => exact nest.tail

end Innermost
end Environment
end BlockScript
