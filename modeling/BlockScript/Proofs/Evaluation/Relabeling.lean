import BlockScript.Evaluation.Machine
import BlockScript.Proofs.Grammar.Relabeling

/-!
Running a program whose tokens were changed but for their texts. Variables go by the texts of
names, so the run is the same but for the token that an error carries.
-/
namespace BlockScript

def RuntimeError.mapToken (f : Token → Token) : RuntimeError → RuntimeError
  | type fault token => type fault (f token)
  | undefinedVariable token => undefinedVariable (f token)

def Abort.mapToken (f : Token → Token) : Abort → Abort
  | runtime error => runtime (error.mapToken f)
  | deadScope id => deadScope id

variable {f : Token → Token}

namespace Run
variable {σ α β : Type}

/-- A run with a changed token in its error. -/
def relabel (f : Token → Token) (x : Run σ α) : Run σ α := fun s =>
  match x s with
  | .ok a next => .ok a next
  | .error abort next => .error (abort.mapToken f) next

private theorem relabel_bind (x : Run σ α) (g : α → Run σ β) :
    relabel f (x >>= g) = relabel f x >>= fun a => relabel f (g a) := by
  funext s
  change relabel f (EStateM.bind x g) s = EStateM.bind (relabel f x) (fun a => relabel f (g a)) s
  simp only [relabel, EStateM.bind]
  cases x s <;> rfl

private theorem relabel_ask {question changed : σ → Except Abort α}
    (h : ∀ s, changed s = (question s).mapError (Abort.mapToken f)) :
    relabel f (ask question) = ask changed := by
  funext s
  rw [relabel, ask, ask, h]
  cases question s <;> rfl

private theorem relabel_change {update changed : σ → Except Abort σ}
    (h : ∀ s, changed s = (update s).mapError (Abort.mapToken f)) :
    relabel f (change update) = change changed := by
  funext s
  rw [relabel, change, change, h]
  cases update s <;> rfl

private theorem relabel_blame (token : Token) (result : Except TypeFault α) :
    relabel f (blame token result : Run σ α) = blame (f token) result := by
  cases result <;> rfl

end Run

/-- A change of errors goes through a step that it leaves alone. -/
private theorem mapError_bind {ε α β : Type} {g : ε → ε} {x : Except ε α} (h : x.mapError g = x)
    (next : α → Except ε β) : (x >>= next).mapError g = x >>= fun a => (next a).mapError g := by
  cases x with
  | ok a => rfl
  | error e => exact congrArg Except.error (Except.error.inj h)

namespace Environment

/-- Looking for a name fails without blaming a token. -/
private theorem resolveIn_mapError (name : String) (scopes : List Scope) (id : ScopeId) :
    (resolveIn name scopes id).mapError (Abort.mapToken f) = resolveIn name scopes id := by
  induction scopes generalizing id with
  | nil => rfl
  | cons scope below ih =>
    rw [resolveIn]
    split
    · split
      · rfl
      · exact ih _
      · rfl
    · exact ih _

private theorem updateIn_mapError (change : Bindings → Bindings) (scopes : List Scope)
    (id : ScopeId) :
    (updateIn change scopes id).mapError (Abort.mapToken f) = updateIn change scopes id := by
  induction scopes generalizing id with
  | nil => rfl
  | cons scope below ih =>
    rw [updateIn]
    split
    · rfl
    · exact mapError_bind (ih id) _

variable (env : Environment) (here : ScopeId)

private theorem define_mapError (name : String) (value : Value) :
    (env.define here name value).mapError (Abort.mapToken f) = env.define here name value :=
  mapError_bind (updateIn_mapError _ env.scopes here) _

private theorem resolve_mapError (name : String) :
    (env.resolve here name).mapError (Abort.mapToken f) = env.resolve here name :=
  resolveIn_mapError name env.scopes here

theorem get_mapToken (hf : Token.KeepsText f) (token : Token) :
    env.get here (f token) = (env.get here token).mapError (Abort.mapToken f) := by
  rw [get, get, hf.lexeme, mapError_bind (env.resolve_mapError here token.lexeme)]
  congr 1
  funext found
  cases found <;> rfl

theorem assign_mapToken (hf : Token.KeepsText f) (token : Token) (value : Value) :
    env.assign here (f token) value =
      (env.assign here token value).mapError (Abort.mapToken f) := by
  rw [assign, assign, hf.lexeme, mapError_bind (env.resolve_mapError here token.lexeme)]
  congr 1
  funext found
  cases found with
  | none => rfl
  | some owner => exact (env.define_mapError owner.1 token.lexeme value).symm

end Environment

theorem Expr.evaluate_mapTokens (hf : Token.KeepsText f) (here : ScopeId) (e : Expr) :
    (e.mapTokens f).evaluate here = Run.relabel f (e.evaluate here) := by
  induction e with
  | literal value => rfl
  | name token => exact (Run.relabel_ask fun env => env.get_mapToken here hf token).symm
  | group inner ih => exact ih
  | unary operator operand ih =>
    simp only [mapTokens, evaluate, ih, Run.relabel_bind, Run.relabel_blame, hf.kind]
  | binary left operator right ihLeft ihRight =>
    simp only [mapTokens, evaluate, ihLeft, ihRight, Run.relabel_bind, Run.relabel_blame, hf.kind]
  | assign target value ih =>
    have hchange (new : Value) :
        Run.relabel f (Run.change fun env : Environment => env.assign here target new) =
          Run.change fun env => env.assign here (f target) new :=
      Run.relabel_change fun env => env.assign_mapToken here hf target new
    simp only [mapTokens, evaluate, ih, Run.relabel_bind, hchange]
    rfl

namespace Machine

private theorem value_mapTokens (hf : Token.KeepsText f) (e : Expr) :
    value (e.mapTokens f) = Run.relabel f (value e) := by
  funext m
  rw [value, e.evaluate_mapTokens hf, Run.relabel, Run.relabel, value]
  cases e.evaluate m.current m.environment <;> rfl

private theorem relabel_define (name : String) (v : Value) :
    Run.relabel f (define name v) = define name v := by
  apply Run.relabel_change
  intro m
  rw [mapError_bind (m.environment.define_mapError m.current name v)]
  rfl

private theorem relabel_inNewScope (body : Run Machine Unit) :
    Run.relabel f (inNewScope body) = inNewScope (Run.relabel f body) := by
  funext m
  simp only [Run.relabel, inNewScope]
  split <;> rename_i h <;> split at h <;> simp_all

mutual

theorem execute_mapTokens {f : Token → Token} (hf : Token.KeepsText f) :
    ∀ s : Stmt, execute (s.mapTokens f) = Run.relabel f (execute s)
  | .evaluate e => by
    rw [Stmt.mapTokens, execute, execute, value_mapTokens hf, Run.relabel_bind]
    rfl
  | .print e => by
    rw [Stmt.mapTokens, execute, execute, value_mapTokens hf, Run.relabel_bind]
    rfl
  | .declare name none => by
    rw [Stmt.mapTokens, execute, execute, hf.lexeme, relabel_define]
  | .declare name (some initial) => by
    simp only [Stmt.mapTokens, execute, value_mapTokens hf, Run.relabel_bind, relabel_define,
      hf.lexeme]
  | .block body => by
    rw [Stmt.mapTokens, execute, execute, relabel_inNewScope, executeAll_mapAll hf]

theorem executeAll_mapAll {f : Token → Token} (hf : Token.KeepsText f) :
    ∀ program : List Stmt, executeAll (Stmt.mapAll f program) = Run.relabel f (executeAll program)
  | [] => rfl
  | first :: rest => by
    rw [Stmt.mapAll, executeAll, executeAll, Run.relabel_bind, execute_mapTokens hf,
      executeAll_mapAll hf]

end

/-- Changed tokens show in nothing but the error. -/
theorem interpret_mapAll (hf : Token.KeepsText f) (m : Machine) (program : List Stmt) :
    m.interpret (Stmt.mapAll f program) =
      ((m.interpret program).1, (m.interpret program).2.map (Abort.mapToken f)) := by
  rw [interpret, executeAll_mapAll hf, Run.relabel, interpret]
  cases executeAll program m <;> rfl

end Machine
end BlockScript
