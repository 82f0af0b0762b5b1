import BlockScript.Evaluation.Machine
import BlockScript.Program.Statement
import BlockScript.Source.Scan

/-!
Running source text. Static errors are all reported and then nothing runs; a run reports at most
the one error that stopped it. A console writes what is reported as text and remembers which kinds
it has seen.
-/
namespace BlockScript

/-- What a run has to report. -/
inductive Event where
  | static (d : Diagnostic)
  | aborted (a : Abort)
deriving DecidableEq

/-- Runs a source. Lexical errors do not keep the tokens from being parsed, so that syntax errors
are reported beside them. -/
def Machine.run (m : Machine) (source : String) : Machine × List Event :=
  let scan := Source.scan source
  let lexical := scan.errors.map fun e => Event.static e.diagnostic
  match Program.ofTokens scan.tokens with
  | .error errors => (m, lexical ++ errors.map fun e => Event.static e.diagnostic)
  | .ok program =>
    if scan.errors = [] then
      let (next, abort) := m.interpret program
      (next, (abort.map Event.aborted).toList)
    else
      (m, lexical)

/-- A source without static errors, and the program it denotes. -/
structure Source.Reads (source : String) (program : List Stmt) : Prop where
  scanned : (Source.scan source).errors = []
  parsed : Program.ofTokens (Source.scan source).tokens = .ok program

namespace Machine

/-- A source without static errors runs its program. -/
theorem run_of_reads {source : String} {program : List Stmt} (h : Source.Reads source program)
    (m : Machine) : m.run source =
      ((m.interpret program).1, ((m.interpret program).2.map Event.aborted).toList) := by
  simp only [run, h.parsed, h.scanned, if_true]

/-- A source with a static error changes nothing. -/
theorem run_fst_of_not_reads {source : String} (h : ¬∃ program, Source.Reads source program)
    (m : Machine) : (m.run source).1 = m := by
  cases parsed : Program.ofTokens (Source.scan source).tokens with
  | error errors => simp only [run, parsed]
  | ok program =>
    have scanned : ¬(Source.scan source).errors = [] := fun scanned => h ⟨program, scanned, parsed⟩
    simp only [run, parsed, if_neg scanned]

end Machine

def Abort.text : Abort → String
  | runtime error => error.text
  | deadScope id => "Scope " ++ toString id ++ " is gone."

/-- The text reported so far, and whether static errors or aborts were among it since the last
reset. -/
structure Console where
  hadError : Bool
  hadRuntimeError : Bool
  text : String
deriving DecidableEq

namespace Console

def new : Console := ⟨false, false, ""⟩

def report (c : Console) : Event → Console
  | .static d => { c with hadError := true, text := c.text ++ d.text ++ "\n" }
  | .aborted a => { c with hadRuntimeError := true, text := c.text ++ a.text ++ "\n" }

def reportAll (c : Console) (events : List Event) : Console := events.foldl report c

/-- Forgets which errors were seen. What was written stays written. -/
def reset (c : Console) : Console := { c with hadError := false, hadRuntimeError := false }

end Console

end BlockScript
