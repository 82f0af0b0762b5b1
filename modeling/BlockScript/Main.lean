import BlockScript.CommandLine.Shell

/-!
The command: reads its arguments, the script or the input, and writes what the shell answers.
-/
namespace BlockScript.CommandLine

/-- The system error behind a failed attempt to read a file. -/
def systemError : IO.Error → SystemError
  | .inappropriateType _ 21 _ => .isDirectory
  | .inappropriateType .. => .notDirectory
  | .invalidArgument .. => .nameTooLong
  | _ => .notFound

def readScript (path : String) : IO (Except SystemError String) := do
  try
    let bytes ← IO.FS.readBinFile path
    match decode? bytes.toList with
    | some source => return .ok source
    | none => return .error .notText
  catch e => return .error (systemError e)

def emit (o : Outcome) : IO UInt32 := do
  IO.print o.output
  IO.eprint o.errors
  return UInt32.ofNat o.exitCode

/-- Reads bytes through the next newline. -/
partial def readLine (input : IO.FS.Stream) (line : ByteArray) : IO ByteArray := do
  let byte ← input.read 1
  if byte.isEmpty then return line
  let longer := line ++ byte
  if byte[0]! = 10 then return longer
  readLine input longer

/-- Writes what the shell has written, and hands on the rest of it. -/
def writeOut (s : Shell) : IO Shell := do
  let ((output, errors), rest) := s.drain
  IO.print output
  (← IO.getStdout).flush
  IO.eprint errors
  return rest

/-- Prompts and runs lines until the input ends or fails. -/
partial def converse (input : IO.FS.Stream) (s : Shell) : IO UInt32 := do
  match s.prompt with
  | .error e => emit (s.exit 74 (Shell.inputFailure e))
  | .ok asked =>
    let asked ← writeOut asked
    let line ← readLine input .empty
    if line.isEmpty then emit (asked.exit 0 "")
    else
      match asked.enter line.toList with
      | .error e => emit (asked.exit 74 (Shell.inputFailure e))
      | .ok done => converse input (← writeOut done)

end BlockScript.CommandLine

open BlockScript.CommandLine in
def main (arguments : List String) : IO UInt32 := do
  match arguments with
  | [] => converse (← IO.getStdin) (Shell.new .working)
  | [path] => emit (runScript .working path (← readScript path))
  | _ => emit (showUsage .working)
