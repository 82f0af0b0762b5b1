import BlockScript.Evaluation.Operators
import BlockScript.Output
import BlockScript.Program.PrefixForm
import BlockScript.Scope.Environment

/-!
Evaluation of expressions and execution of statements. An expression can only change variables,
so it runs on the environment alone; a statement runs on the whole machine. Whatever stopped an
evaluation, the changes made before it stay.
-/
namespace BlockScript

/-- Effects that an abort does not undo. -/
abbrev Run (σ α : Type) := EStateM Abort σ α

namespace Run

/-- An answer about the state. -/
def ask {σ α : Type} (question : σ → Except Abort α) : Run σ α := fun s =>
  match question s with
  | .ok a => .ok a s
  | .error a => .error a s

/-- A change of the state. -/
def change {σ : Type} (f : σ → Except Abort σ) : Run σ Unit := fun s =>
  match f s with
  | .ok next => .ok () next
  | .error a => .error a s

/-- A result, with the blame for a fault on a token. -/
def blame {σ α : Type} (token : Token) : Except TypeFault α → Run σ α
  | .ok a => pure a
  | .error fault => throw (.runtime (.type fault token))

end Run

namespace Expr

/-- The value of an expression seen from a scope. Operands are evaluated from the left and before
the operator looks at them. -/
def evaluate (here : ScopeId) : Expr → Run Environment Value
  | literal value => return value
  | name token => Run.ask (·.get here token)
  | group inner => inner.evaluate here
  | unary operator operand => do
    let value ← operand.evaluate here
    Run.blame operator (value.applyUnary operator.kind)
  | binary left operator right => do
    let first ← left.evaluate here
    let second ← right.evaluate here
    Run.blame operator (Value.applyBinary operator.kind first second)
  | assign target value => do
    let new ← value.evaluate here
    Run.change (·.assign here target new)
    return new

end Expr

/-- A running program: its variables, the scope it is in, and where its lines go. -/
structure Machine where
  environment : Environment
  current : ScopeId
  output : Output

namespace Machine

/-- A machine that has run nothing. -/
def new (output : Output) : Machine := ⟨.empty, .global, output⟩

/-- The value of an expression in the current scope. -/
def value (e : Expr) : Run Machine Value := fun m =>
  match e.evaluate m.current m.environment with
  | .ok v environment => .ok v { m with environment }
  | .error a environment => .error a { m with environment }

def printLine (line : String) : Run Machine Unit :=
  modify fun m => { m with output := m.output.printLine line }

/-- Binds a name in the current scope. -/
def define (name : String) (value : Value) : Run Machine Unit :=
  Run.change fun m => do
    return { m with environment := ← m.environment.define m.current name value }

/-- Runs in a new scope inside the current one, and leaves it however the run ends. -/
def inNewScope (body : Run Machine Unit) : Run Machine Unit := fun m =>
  let (id, environment) := m.environment.push m.current
  let leave (inside : Machine) : Machine :=
    { inside with environment := inside.environment.release id, current := m.current }
  match body { m with environment, current := id } with
  | .ok _ inside => .ok () (leave inside)
  | .error a inside => .error a (leave inside)

mutual

def execute : Stmt → Run Machine Unit
  | .evaluate expression => do
    let _ ← value expression
  | .print expression => do
    let shown ← value expression
    printLine shown.display
  | .declare name none => define name.lexeme .nil
  | .declare name (some initial) => do
    define name.lexeme (← value initial)
  | .block body => inNewScope (executeAll body)

/-- Statements in order, up to the first that stops. -/
def executeAll : List Stmt → Run Machine Unit
  | [] => return ()
  | first :: rest => do
    execute first
    executeAll rest

end

/-- Runs a program and says what stopped it, if anything did. -/
def interpret (m : Machine) (program : List Stmt) : Machine × Option Abort :=
  match executeAll program m with
  | .ok _ next => (next, none)
  | .error a next => (next, some a)

/-- Evaluates one expression. -/
def evaluate (m : Machine) (e : Expr) : Machine × Except Abort Value :=
  match value e m with
  | .ok v next => (next, .ok v)
  | .error a next => (next, .error a)

def clearOutput (m : Machine) : Machine := { m with output := m.output.clear }

end Machine
end BlockScript
