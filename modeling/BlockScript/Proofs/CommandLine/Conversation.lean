import BlockScript.Proofs.CommandLine.ExitCodes
import BlockScript.Proofs.CommandLine.Lines
import BlockScript.Proofs.Session.Numbering

/-!
Lines of an input are run in one machine that keeps its variables from line to line. What is written
is the prompt before each line and at the end, and between two prompts what that line prints; a line
that is no text ends the conversation with what the lines before it made of it.
-/
namespace BlockScript

/-- What a console shows for a report. -/
def Event.text : Event → String
  | static d => d.text ++ "\n"
  | aborted a => a.text ++ "\n"

/-- What the run of one source printed and reported. -/
structure Answer where
  printed : String
  events : List Event
deriving DecidableEq

/-- What a console shows for all reports of a run. -/
def Answer.report (a : Answer) : String := String.join (a.events.map Event.text)

namespace Machine

/-- Runs a source with an empty buffer for its lines. -/
def answer (m : Machine) (source : String) : Answer × Machine :=
  let (next, events) := run { m with output := .buffer "" } source
  (⟨next.output.captured, events⟩, next)

/-- Runs sources one after the other in one machine. -/
def answers (m : Machine) : List String → List Answer
  | [] => []
  | source :: rest => (m.answer source).1 :: (m.answer source).2.answers rest

end Machine

namespace CommandLine

namespace Shell
variable {s : Shell} {m : Machine}

end Shell

end CommandLine
end BlockScript
