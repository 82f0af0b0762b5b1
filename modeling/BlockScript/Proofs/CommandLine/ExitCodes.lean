import BlockScript.CommandLine.Shell
import BlockScript.Proofs.Evaluation.Printing
import BlockScript.Proofs.Session.Pieces
import BlockScript.Proofs.Session.Independence

/-!
The exit code of a script tells what became of it. Static errors keep it from running, an error of
the program stops it, and what it prints is what a buffer would have captured.
-/
namespace BlockScript

namespace Console

/-- The flag for static errors remembers whether one was reported. -/
private theorem hadError_reportAll (c : Console) (events : List Event) :
    (c.reportAll events).hadError = true ↔ c.hadError = true ∨ ∃ d, .static d ∈ events := by
  induction events generalizing c with
  | nil => simp [reportAll]
  | cons event rest ih =>
    change ((c.report event).reportAll rest).hadError = true ↔ _
    rw [ih]
    cases event <;> simp [report]

/-- The flag for aborts remembers whether one was reported. -/
private theorem hadRuntimeError_reportAll (c : Console) (events : List Event) :
    (c.reportAll events).hadRuntimeError = true ↔
      c.hadRuntimeError = true ∨ ∃ a, .aborted a ∈ events := by
  induction events generalizing c with
  | nil => simp [reportAll]
  | cons event rest ih =>
    change ((c.report event).reportAll rest).hadRuntimeError = true ↔ _
    rw [ih]
    cases event <;> simp [report]

end Console

namespace Source
variable {source : String} {program other : List Stmt}

/-- A source without static errors has no lexical one, and its tokens are a program of the
grammar. -/
theorem reads_iff_derived : Reads source program ↔ (scan source).errors = [] ∧
    Grammar.Declarations (Grammar.body (scan source).tokens) program [] := by
  rw [← Grammar.ofTokens_eq_ok_iff]
  exact ⟨fun h => ⟨h.scanned, h.parsed⟩, fun h => ⟨h.1, h.2⟩⟩

theorem faulty_iff : Faulty source ↔ (scan source).errors ≠ [] ∨
    ¬ ∃ program, Grammar.Declarations (Grammar.body (scan source).tokens) program [] := by
  simp only [Faulty, ← Grammar.ofTokens_eq_ok_iff]
  cases Program.ofTokens (scan source).tokens <;> simp

theorem Reads.unique (h : Reads source program) (h' : Reads source other) : program = other :=
  Except.ok.inj (h.parsed.symm.trans h'.parsed)

end Source

namespace CommandLine

namespace Shell
variable {s : Shell} {source : String}

theorem sent_eq (s : Shell) : s.sent = s.machine.output.text := by
  unfold sent
  cases s.machine.output <;> rfl

theorem run_eq (s : Shell) (source : String) :
    s.run source = ⟨(s.machine.run source).1, s.console.reportAll (s.machine.run source).2⟩ := rfl

private theorem script_eq (s : Shell) (source : String) :
    s.script source = (s.run source).exit
      (if (s.run source).console.hadError then 65
        else if (s.run source).console.hadRuntimeError then 70 else 0) "" := by
  simp only [script]
  split_ifs <;> rfl

private theorem script_output (s : Shell) (source : String) :
    (s.script source).output = (s.machine.run source).1.output.text := by
  rw [script_eq]
  exact sent_eq _

private theorem script_exitCode_of_static {d : Diagnostic}
    (h : .static d ∈ (s.machine.run source).2) :
    (s.script source).exitCode = 65 := by
  have hflag : (s.run source).console.hadError = true := by
    rw [run_eq, Console.hadError_reportAll]
    exact .inr ⟨d, h⟩
  rw [script_eq]
  exact if_pos hflag

private theorem script_exitCode_of_aborted (hnew : s.console.hadError = false) {abort : Abort}
    (h : (s.machine.run source).2 = [.aborted abort]) : (s.script source).exitCode = 70 := by
  have hstatic : ¬ (s.run source).console.hadError = true := by
    rw [run_eq, Console.hadError_reportAll, h, hnew]
    simp
  have hflag : (s.run source).console.hadRuntimeError = true := by
    rw [run_eq, Console.hadRuntimeError_reportAll, h]
    exact .inr ⟨abort, List.mem_cons_self⟩
  rw [script_eq]
  exact (if_neg hstatic).trans (if_pos hflag)

private theorem script_exitCode_of_silent (hnew : s.console = .new)
    (h : (s.machine.run source).2 = []) : (s.script source).exitCode = 0 := by
  rw [script_eq, run_eq, h, hnew]
  rfl

end Shell

variable {source : String} {program : List Stmt}

/-- A script with a static error exits with 65 and prints nothing. -/
private theorem script_of_faulty (h : Source.Faulty source) (device : Device) :
    ((Shell.new device).script source).exitCode = 65 ∧
      ((Shell.new device).script source).output = device.sent := by
  have hrun := Machine.run_of_faulty h (Shell.new device).machine
  obtain ⟨d, others, hd⟩ := List.exists_cons_of_ne_nil h.staticErrors_ne_nil
  constructor
  · apply Shell.script_exitCode_of_static (d := d)
    rw [hrun, hd]
    exact List.mem_cons_self
  · rw [Shell.script_output, hrun]
    rfl

/-- A script without static errors exits with 70 if an error stops its program in a new machine
with a buffer, and with 0 otherwise. What it prints is what the buffer captures, if it all gets
through. -/
private theorem script_of_reads (h : Source.Reads source program) (device : Device) :
    ∃ error next,
      (Machine.new (.buffer "")).interpret program = (next, Option.map Abort.runtime error) ∧
      ((Shell.new device).script source).exitCode = (if error = none then 0 else 70) ∧
      ((∀ n, device.accepts n = true) →
        ((Shell.new device).script source).output = device.sent ++ next.output.captured) := by
  obtain ⟨lines, error, last, next, hdevice, hbuffer, -, hprinted, hcaptured⟩ :=
    (Machine.Twins.new (.device device) (.buffer "")).interpret program
  have hrun : (Shell.new device).machine.run source =
      (last, ((error.map Abort.runtime).map Event.aborted).toList) := by
    have hnew : (Shell.new device).machine = Machine.new (.device device) := rfl
    rw [Machine.run_of_reads h, hnew, hdevice]
  refine ⟨error, next, hbuffer, ?_, fun hworking => ?_⟩
  · cases error with
    | none => exact Shell.script_exitCode_of_silent rfl (by rw [hrun]; rfl)
    | some error => exact Shell.script_exitCode_of_aborted rfl (by rw [hrun]; rfl)
  · have hworks : (Output.device device).Working := hworking
    rw [Shell.script_output, hrun, hprinted, hcaptured]
    exact hworks.text_printAll_eq_captured lines

/-- What the exit code of a script says about its source. -/
theorem script_exitCode_iff (device : Device) (source : String) :
    (((Shell.new device).script source).exitCode = 65 ↔ Source.Faulty source) ∧
    (((Shell.new device).script source).exitCode = 70 ↔ ∃ program error,
      Source.Reads source program ∧
        ((Machine.new (.buffer "")).interpret program).2 = some (.runtime error)) ∧
    (((Shell.new device).script source).exitCode = 0 ↔ ∃ program, Source.Reads source program ∧
      ((Machine.new (.buffer "")).interpret program).2 = none) := by
  rcases Source.faulty_or_reads source with hfaulty | ⟨program, hreads⟩
  · have hno : ∀ program, ¬ Source.Reads source program := fun _ h => h.not_faulty hfaulty
    simp [(script_of_faulty hfaulty device).1, hfaulty, hno]
  · obtain ⟨error, next, hinterpret, hcode, -⟩ := script_of_reads hreads device
    have honly : ∀ other, Source.Reads source other → other = program := fun _ h => h.unique hreads
    refine ⟨⟨fun h => ?_, fun h => absurd h hreads.not_faulty⟩, ⟨fun h => ?_, ?_⟩, fun h => ?_, ?_⟩
    · have hne : (if error = none then 0 else 70) ≠ 65 := by split_ifs <;> decide
      exact absurd (hcode.symm.trans h) hne
    · cases error with
      | none => simp [hcode] at h
      | some error => exact ⟨program, error, hreads, by rw [hinterpret]; rfl⟩
    · rintro ⟨other, stopped, hother, hstopped⟩
      rw [honly other hother, hinterpret] at hstopped
      cases error with
      | none => cases hstopped
      | some error => exact hcode
    · cases error with
      | none => exact ⟨program, hreads, by rw [hinterpret]; rfl⟩
      | some error => simp [hcode] at h
    · rintro ⟨other, hother, hsilent⟩
      rw [honly other hother, hinterpret] at hsilent
      cases error with
      | none => exact hcode
      | some error => cases hsilent

/-- A script prints what a buffer captures, if it all gets through. -/
theorem script_output_eq_captured {device : Device} (h : ∀ n, device.accepts n = true)
    (source : String) : ((Shell.new device).script source).output =
      device.sent ++ ((Machine.new (.buffer "")).run source).1.output.captured := by
  rcases Source.faulty_or_reads source with hfaulty | ⟨program, hreads⟩
  · rw [(script_of_faulty hfaulty device).2, Machine.run_of_faulty hfaulty]
    exact String.append_empty.symm
  · obtain ⟨error, next, hinterpret, -, hprinted⟩ := script_of_reads hreads device
    rw [hprinted h, Machine.run_of_reads hreads, hinterpret]

/-- The command with the path of a readable script runs the script. -/
private theorem Invocation.run_script {i : Invocation} {path : String}
    (harguments : i.arguments = [path])
    (hread : i.files.read path = .ok source) : i.run = (Shell.new i.device).script source := by
  simp only [Invocation.run, harguments, hread, runScript]

/-- Static errors and exit codes. A source with a static error reports exactly its static errors
and changes nothing. Any other source reports nothing, or only what stopped its first failing
statement, which in a well-formed machine is an error of the program. So the exit code of a script
says whether its source has a static error, its program fails in a new machine or neither, and a
script prints what a buffer captures. -/
theorem exit_codes_truthful :
    (∀ (m : Machine) source, Source.Faulty source →
      m.run source = (m, (Source.staticErrors source).map Event.static)) ∧
    (∀ (m : Machine) source program, Source.Reads source program →
      (m.run source = ((m.interpret program).1, []) ∧ (m.interpret program).2 = none ∨
        ∃ before s after middle abort next, program = before ++ s :: after ∧
          m.interpret before = (middle, none) ∧ Machine.execute s middle = .error abort next ∧
          m.run source = (next, [.aborted abort])) ∧
      (m.WellFormed → ∀ abort, .aborted abort ∈ (m.run source).2 →
        ∃ error, abort = .runtime error)) ∧
    ∀ (i : Invocation) path source, i.arguments = [path] → i.files.read path = .ok source →
      (i.run.exitCode = 65 ↔ (Source.scan source).errors ≠ [] ∨
        ¬ ∃ program, Grammar.Declarations (Grammar.body (Source.scan source).tokens) program []) ∧
      (i.run.exitCode = 65 → i.run.output = i.device.sent) ∧
      (i.run.exitCode = 70 ↔ ∃ program error, (Source.scan source).errors = [] ∧
        Grammar.Declarations (Grammar.body (Source.scan source).tokens) program [] ∧
        ((Machine.new (.buffer "")).interpret program).2 = some (.runtime error)) ∧
      (i.run.exitCode = 0 ↔ ∃ program, (Source.scan source).errors = [] ∧
        Grammar.Declarations (Grammar.body (Source.scan source).tokens) program [] ∧
        ((Machine.new (.buffer "")).interpret program).2 = none) ∧
      ((∀ n, i.device.accepts n = true) → i.run.output =
        i.device.sent ++ ((Machine.new (.buffer "")).run source).1.output.captured) := by
  refine ⟨fun m source h => Machine.run_of_faulty h m, ?_, ?_⟩
  · intro m source program h
    exact ⟨Machine.run_of_reads_cases h m, fun hm abort ha => hm.runtime_of_aborted h ha⟩
  · intro i path source harguments hread
    obtain ⟨hstatic, hstopped, hfinished⟩ := script_exitCode_iff i.device source
    rw [Invocation.run_script harguments hread]
    refine ⟨hstatic.trans Source.faulty_iff, fun h => ?_, hstopped.trans ?_, hfinished.trans ?_,
      fun h => script_output_eq_captured h source⟩
    · exact (script_of_faulty (hstatic.mp h) i.device).2
    · simp only [Source.reads_iff_derived, and_assoc]
    · simp only [Source.reads_iff_derived, and_assoc]

/-- A source with both kinds of static errors, and a script that prints a line before it fails. -/
theorem exit_codes_truthful_unbound :
    let m := Machine.new (.buffer "")
    let name : Token := ⟨.identifier, "b", .nil, 2⟩
    let source := "print \"a\";\nb;"
    let program : List Stmt := [.print (.literal (.string "a")), .evaluate (.name name)]
    let i : Invocation := ⟨["s"], [(["s"], .file source.toUTF8.toList)], [], .working⟩
    (Source.Faulty "@;" ∧ m.run "@;" = (m, [.static ⟨1, "", "Unexpected character."⟩,
      .static ⟨1, " at ';'", "Expected expression."⟩])) ∧
    (Source.Reads source program ∧ m.WellFormed ∧
      ∀ abort, .aborted abort ∈ (m.run source).2 → ∃ error, abort = .runtime error) ∧
    i.arguments = ["s"] ∧ i.files.read "s" = .ok source ∧ i.run.exitCode = 70 ∧
      i.run.output = "a\n" := by
  intro m name source program i
  let shown : Token := ⟨.string, "\"a\"", .string "a", 1⟩
  have hreads : Source.Reads source program := by
    have hlexed : Source.lexed 1 source.toList =
        [⟨.keyword .printWord, "print", .nil, 1⟩, shown, ⟨.symbol .semicolon, ";", .nil, 1⟩, name,
          ⟨.symbol .semicolon, ";", .nil, 2⟩] := by
      decide +kernel
    have hshown : Grammar.Derives .assignment [shown] (.literal shown.literal) [] :=
      .equality (.equality_of_primary (.literal (.string rfl)))
    have hname : Grammar.Derives .assignment [name] (.name name) [] :=
      .equality (.equality_of_primary (.name rfl))
    rw [Source.reads_iff, hlexed]
    exact ⟨by decide +kernel, .cons (.print rfl hshown rfl) (.cons (.expression hname rfl) .nil)⟩
  have hread : i.files.read "s" = .ok source := by
    have hsplit : "s".splitOn "/" = ["s"] := by
      rw [String.splitOn, if_neg (by decide), String.splitOnAux, if_neg (by decide +kernel),
        if_neg (by decide +kernel), String.splitOnAux, if_pos (by decide +kernel)]
      decide +kernel
    rw [FileTree.read, hsplit]
    decide +kernel
  have hfaulty : Source.Faulty "@;" := .inl (by decide +kernel)
  have hwellFormed : m.WellFormed := Machine.wellFormed_new _
  obtain ⟨hstatic, hrun, hscript⟩ := exit_codes_truthful
  obtain ⟨-, -, hstopped, -, hcaptured⟩ := hscript i "s" source rfl hread
  obtain ⟨hlexical, hderived⟩ := Source.reads_iff_derived.mp hreads
  refine ⟨⟨hfaulty, ?_⟩, ⟨hreads, hwellFormed, (hrun m source program hreads).2 hwellFormed⟩, rfl,
    hread, hstopped.mpr ⟨program, .undefinedVariable name, hlexical, hderived, rfl⟩, ?_⟩
  · rw [hstatic m "@;" hfaulty]
    have herrors : Source.staticErrors "@;" =
        [⟨1, "", "Unexpected character."⟩, ⟨1, " at ';'", "Expected expression."⟩] := by
      decide +kernel
    rw [herrors]
    rfl
  · rw [hcaptured fun _ => rfl, Machine.run_of_reads hreads]
    rfl

end CommandLine
end BlockScript
