import BlockScript.Diagnostic

/-!
Scopes in a stack, each linked to the scope that encloses it. A scope is named by its index from
the bottom, so an index outlives its scope and names whatever scope stands there later; using an
index with no scope is an error of its own. Links lead downwards, so following them is recursion
on the stack.
-/
namespace BlockScript

/-- Names with their values, each name at most once when built by `set`. -/
abbrev Bindings := List (String × Value)

namespace Bindings

def find? : Bindings → String → Option Value
  | [], _ => none
  | (other, value) :: rest, name => if other = name then some value else find? rest name

/-- Binds a name, in place of its old value if it has one. -/
def set : Bindings → String → Value → Bindings
  | [], name, value => [(name, value)]
  | (other, old) :: rest, name, value =>
    if other = name then (name, value) :: rest else (other, old) :: set rest name value

theorem find?_set_self (b : Bindings) (name : String) (value : Value) :
    (b.set name value).find? name = some value := by
  fun_induction set b name value <;> simp_all [find?]

theorem find?_set_of_ne (b : Bindings) {name other : String} (value : Value) (h : other ≠ name) :
    (b.set name value).find? other = b.find? other := by
  fun_induction set b name value <;> simp_all [find?, eq_comm]

end Bindings

/-- The number of scopes below a scope. -/
abbrev ScopeId := Nat

/-- The scope at the bottom, which is never released. -/
def ScopeId.global : ScopeId := 0

structure Scope where
  bindings : Bindings
  enclosing : Option ScopeId
deriving DecidableEq

/-- Why an evaluation stopped: an error of the program, or the use of a scope that is gone. -/
inductive Abort where
  | runtime (error : RuntimeError)
  | deadScope (id : ScopeId)
deriving DecidableEq

/-- The live scopes, the newest first. -/
structure Environment where
  scopes : List Scope
deriving DecidableEq

namespace Environment

/-- Only the global scope, with no variables. -/
def empty : Environment := ⟨[⟨[], none⟩]⟩

def depth (env : Environment) : Nat := env.scopes.length

/-- Adds a scope inside another one. -/
def push (env : Environment) (enclosing : ScopeId) : ScopeId × Environment :=
  (env.depth, ⟨⟨[], some enclosing⟩ :: env.scopes⟩)

/-- Drops a scope and all newer ones. The global scope stays, and a dead scope is dropped
already. -/
def release (env : Environment) (id : ScopeId) : Environment :=
  if id = ScopeId.global then env else ⟨env.scopes.drop (env.depth - id)⟩

/-- The first scope that binds a name, from a scope outwards, and the value bound there. `none`
where the name is unbound. -/
def resolveIn (name : String) : List Scope → ScopeId → Except Abort (Option (ScopeId × Value))
  | [], id => .error (.deadScope id)
  | scope :: below, id =>
    if id = below.length then
      match scope.bindings.find? name, scope.enclosing with
      | some value, _ => .ok (some (id, value))
      | none, some outer => resolveIn name below outer
      | none, none => .ok none
    else
      resolveIn name below id

def resolve (env : Environment) (id : ScopeId) (name : String) :
    Except Abort (Option (ScopeId × Value)) :=
  resolveIn name env.scopes id

/-- Changes the scope with an index. -/
def updateIn (change : Bindings → Bindings) : List Scope → ScopeId → Except Abort (List Scope)
  | [], id => .error (.deadScope id)
  | scope :: below, id =>
    if id = below.length then
      .ok ({ scope with bindings := change scope.bindings } :: below)
    else do
      return scope :: (← updateIn change below id)

/-- Binds a name in a scope. -/
def define (env : Environment) (id : ScopeId) (name : String) (value : Value) :
    Except Abort Environment := do
  return ⟨← updateIn (·.set name value) env.scopes id⟩

/-- The value of the variable that a token names, seen from a scope. -/
def get (env : Environment) (id : ScopeId) (name : Token) : Except Abort Value := do
  match ← env.resolve id name.lexeme with
  | some (_, value) => return value
  | none => throw (.runtime (.undefinedVariable name))

/-- Gives a new value to the variable that a token names, in the scope that binds it. -/
def assign (env : Environment) (id : ScopeId) (name : Token) (value : Value) :
    Except Abort Environment := do
  match ← env.resolve id name.lexeme with
  | some (owner, _) => env.define owner name.lexeme value
  | none => throw (.runtime (.undefinedVariable name))

end Environment
end BlockScript
