import BlockScript.CommandLine.FileTree
import BlockScript.Session

/-!
The two ways to run programs from a command line: one script, or the lines of an input after a
prompt. Both are functions of what they read and of the device they write to.
-/
namespace BlockScript.CommandLine

/-- How a command ends: the exit code and what it wrote. -/
structure Outcome where
  exitCode : Nat
  output : String
  errors : String
deriving DecidableEq, Repr

/-- A machine that prints to a device, and the console that its errors go to. -/
structure Shell where
  machine : Machine
  console : Console

namespace Shell

def new (device : Device) : Shell := ⟨.new (.device device), .new⟩

/-- The text that got through to the device. -/
def sent (s : Shell) : String :=
  match s.machine.output with
  | .device d => d.sent
  | .buffer text => text

/-- Ends with an exit code and a last message. -/
def exit (s : Shell) (code : Nat) (message : String) : Outcome :=
  ⟨code, s.sent, s.console.text ++ message⟩

/-- Runs a source and reports its errors. -/
def run (s : Shell) (source : String) : Shell :=
  let (machine, events) := s.machine.run source
  ⟨machine, s.console.reportAll events⟩

/-- Runs a whole script. Its exit code tells static errors from an abort. -/
def script (s : Shell) (source : String) : Outcome :=
  let done := s.run source
  if done.console.hadError then done.exit 65 ""
  else if done.console.hadRuntimeError then done.exit 70 ""
  else done.exit 0 ""

/-- What was written since the last call, to the device and to the console. -/
def drain (s : Shell) : (String × String) × Shell :=
  let output := match s.machine.output with
    | .device d => .device { d with sent := "" }
    | .buffer _ => .buffer ""
  ((s.sent, s.console.text),
    ⟨{ s.machine with output }, { s.console with text := "" }⟩)

/-- Writes the prompt, which unlike a program's lines has to get through. -/
def prompt (s : Shell) : Except SystemError Shell :=
  match s.machine.output with
  | .device d =>
    if d.ready then .ok { s with machine := { s.machine with output := .device (d.write "> ") } }
    else .error .noSpace
  | .buffer text => .ok { s with machine := { s.machine with output := .buffer (text ++ "> ") } }

/-- Runs one line of input by itself, whatever earlier lines reported. -/
def enter (s : Shell) (line : List UInt8) : Except SystemError Shell :=
  match decode? line with
  | some source =>
    let done := s.run source
    .ok { done with console := done.console.reset }
  | none => .error .notText

def inputFailure (e : SystemError) : String := "Error reading input: " ++ e.text ++ "\n"

/-- Prompts for each line and once more for the end of the input. -/
def interact (s : Shell) : List (List UInt8) → Outcome
  | [] =>
    match s.prompt with
    | .ok asked => asked.exit 0 ""
    | .error e => s.exit 74 (inputFailure e)
  | line :: rest =>
    match s.prompt with
    | .ok asked =>
      match asked.enter line with
      | .ok done => done.interact rest
      | .error e => asked.exit 74 (inputFailure e)
    | .error e => s.exit 74 (inputFailure e)

end Shell

def usage : String := "Usage: vlix [script]\n"

def unreadable (path : String) (e : SystemError) : String :=
  "Error reading '" ++ path ++ "': " ++ e.text ++ "\n"

/-- The command with a script, whose source is what reading it gave. -/
def runScript (device : Device) (path : String) : Except SystemError String → Outcome
  | .ok source => (Shell.new device).script source
  | .error e => (Shell.new device).exit 66 (unreadable path e)

/-- The command with more than one argument. -/
def showUsage (device : Device) : Outcome :=
  if device.ready then ⟨64, (device.write usage).sent, ""⟩
  else ⟨101, device.sent, "failed printing to stdout: " ++ SystemError.noSpace.text ++ "\n"⟩

/-- What a command is started with. -/
structure Invocation where
  arguments : List String
  files : FileTree
  input : List UInt8
  device : Device

/-- Without an argument the lines of the input are run, with one the script at that path. -/
def Invocation.run (i : Invocation) : Outcome :=
  match i.arguments with
  | [] => (Shell.new i.device).interact (lines i.input)
  | [path] => runScript i.device path (i.files.read path)
  | _ => showUsage i.device

end BlockScript.CommandLine
