import BlockScript.Proofs.Evaluation.Printing

/-!
Where the lines of a program go never matters to it. Two machines that differ in nothing but their
outputs run in step: at every moment they have the same variables and have printed the same lines,
whichever of the writes got through, and they come to the same end.
-/
namespace BlockScript

/-- Lines printed to a device leave a device. -/
private theorem Output.exists_device_printAll (d : Device) (lines : List String) :
    ∃ d', (device d).printAll lines = device d' := by
  induction lines generalizing d with
  | nil => exact ⟨d, rfl⟩
  | cons line rest ih => exact ih (d.write (line ++ "\n"))

namespace Run
variable {α β : Type}

/-- The same end of a run on a machine with another output. -/
def redirect (output : Output) :
    EStateM.Result Abort Machine α → EStateM.Result Abort Machine α
  | .ok a next => .ok a { next with output }
  | .error abort next => .error abort { next with output }

/-- From each machine a run prints certain lines, and with another output it prints the same lines
there and does nothing else differently. -/
def Blind (x : Run Machine α) : Prop :=
  ∀ m : Machine, ∃ lines, ∀ output,
    x { m with output } = redirect (output.printAll lines) (x m)

namespace Blind
variable {x : Run Machine α} {f : α → Run Machine β}

theorem bind (hx : x.Blind) (hf : ∀ a, (f a).Blind) : (x >>= f).Blind := by
  intro m
  obtain ⟨lines, hlines⟩ := hx m
  change ∃ lines, ∀ output, EStateM.bind x f _ = redirect _ (EStateM.bind x f m)
  cases hreply : x m with
  | error abort next =>
    refine ⟨lines, fun output => ?_⟩
    rw [EStateM.bind, hlines output, EStateM.bind, hreply]
    rfl
  | ok a next =>
    obtain ⟨more, hmore⟩ := hf a next
    refine ⟨lines ++ more, fun output => ?_⟩
    rw [EStateM.bind, hlines output, EStateM.bind, hreply, Output.printAll_append]
    exact hmore (output.printAll lines)

/-- The lines are those that the run adds to the machine's own output. -/
private theorem final_output (hx : x.Blind) (m : Machine) : ∃ lines,
    (x.final m).output = m.output.printAll lines ∧
      ∀ output, x { m with output } = redirect (output.printAll lines) (x m) := by
  obtain ⟨lines, hlines⟩ := hx m
  refine ⟨lines, ?_, hlines⟩
  have hsame : x m = redirect (m.output.printAll lines) (x m) := hlines m.output
  rw [final, hsame]
  cases x m <;> rfl

end Blind
end Run

namespace Machine

/-- Evaluating an expression does not even see the output. -/
private theorem value_blind (e : Expr) : (value e).Blind := by
  refine fun m => ⟨[], fun output => ?_⟩
  rw [value, value]
  cases e.evaluate m.current m.environment <;> rfl

private theorem printLine_blind (line : String) : (printLine line).Blind :=
  fun _ => ⟨[line], fun _ => rfl⟩

private theorem define_blind (name : String) (v : Value) : (define name v).Blind := by
  refine fun m => ⟨[], fun output => ?_⟩
  simp only [define, Run.change]
  cases m.environment.define m.current name v <;> rfl

/-- A scope is left in the same way wherever the lines printed in it go. -/
private theorem inNewScope_blind {body : Run Machine Unit} (h : body.Blind) :
    (inNewScope body).Blind := by
  intro m
  obtain ⟨lines, hlines⟩ := h m.entered
  refine ⟨lines, fun output => ?_⟩
  have hbody := hlines output
  simp only [entered] at hbody
  simp only [inNewScope, hbody]
  cases body _ <;> rfl

mutual

theorem execute_blind : ∀ s : Stmt, (execute s).Blind
  | .evaluate e => by
    rw [execute]
    exact (value_blind e).bind fun _ _ => ⟨[], fun _ => rfl⟩
  | .print e => by
    rw [execute]
    exact (value_blind e).bind fun v => printLine_blind v.display
  | .declare name none => define_blind name.lexeme .nil
  | .declare name (some initial) => by
    rw [execute]
    exact (value_blind initial).bind fun v => define_blind name.lexeme v
  | .block body => by
    rw [execute]
    exact inNewScope_blind (executeAll_blind body)

/-- A program is blind to its output. -/
theorem executeAll_blind : ∀ program : List Stmt, (executeAll program).Blind
  | [] => fun _ => ⟨[], fun _ => rfl⟩
  | first :: rest => by
    rw [executeAll]
    exact (execute_blind first).bind fun _ => executeAll_blind rest

end

/-- The machines that a machine is while it runs a program: before and behind each statement that it
comes to, in blocks too, and where it stops. -/
inductive Underway : Machine → List Stmt → Machine → Prop where
  | here (m : Machine) (program : List Stmt) : Underway m program m
  | inside {m now : Machine} {body rest : List Stmt} :
      Underway m.entered body now → Underway m (.block body :: rest) now
  | later {m next now : Machine} {first : Stmt} {rest : List Stmt} :
      execute first m = .ok () next → Underway next rest now → Underway m (first :: rest) now
  | stopped {m next : Machine} {first : Stmt} {rest : List Stmt} {abort : Abort} :
      execute first m = .error abort next → Underway m (first :: rest) next

/-- With another output the machine is underway in the same way, with the same lines printed. -/
private theorem Underway.redirected {m now : Machine} {program : List Stmt}
    (h : Underway m program now) :
    ∃ lines, now.output = m.output.printAll lines ∧
      ∀ output, Underway { m with output } program { now with output := output.printAll lines } := by
  induction h with
  | here m program => exact ⟨[], rfl, fun output => .here _ program⟩
  | inside _ ih =>
    obtain ⟨lines, hprinted, hunderway⟩ := ih
    exact ⟨lines, hprinted, fun output => .inside (hunderway output)⟩
  | @later m next now first rest hfirst _ ih =>
    obtain ⟨lines, hnext, hlines⟩ := (execute_blind first).final_output m
    obtain ⟨more, hprinted, hunderway⟩ := ih
    rw [Run.final_of_ok hfirst] at hnext
    rw [hfirst] at hlines
    refine ⟨lines ++ more, ?_, fun output => ?_⟩
    · rw [hprinted, hnext, Output.printAll_append]
    · rw [Output.printAll_append]
      exact .later (hlines output) (hunderway _)
  | @stopped m next first rest abort hfirst =>
    obtain ⟨lines, hnext, hlines⟩ := (execute_blind first).final_output m
    rw [Run.final_of_error hfirst] at hnext
    rw [hfirst] at hlines
    exact ⟨lines, hnext, fun output => .stopped (hlines output)⟩

/-- The end of a program is one for all outputs. -/
theorem interpret_blind (environment : Environment) (current : ScopeId) (program : List Stmt) :
    ∃ lines final here abort, ∀ output, interpret ⟨environment, current, output⟩ program =
      (⟨final, here, output.printAll lines⟩, abort) := by
  obtain ⟨lines, hlines⟩ := executeAll_blind program ⟨environment, current, .buffer ""⟩
  rcases hend : executeAll program ⟨environment, current, .buffer ""⟩ with
    ⟨done, next⟩ | ⟨abort, next⟩
  · refine ⟨lines, next.environment, next.current, none, fun output => ?_⟩
    rw [interpret, hlines output, hend]
    rfl
  · refine ⟨lines, next.environment, next.current, some abort, fun output => ?_⟩
    rw [interpret, hlines output, hend]
    rfl

/-- Outputs never matter to a program. From given variables it comes to the same end, stopped by the
same or by nothing, whether its lines go to a buffer, to a device that accepts them, or to one that
refuses any of them. The buffer has in addition what a device is sent that accepts all. While lines
go to a device, nothing is captured, and the machine is in the same scope with the same variables as
it is with any other output. -/
theorem outputs_never_matter (environment : Environment) (current : ScopeId)
    (program : List Stmt) : ∃ printed final here abort,
      (∀ text, interpret ⟨environment, current, .buffer text⟩ program =
        (⟨final, here, .buffer (text ++ printed)⟩, abort)) ∧
      (∀ d : Device, ∃ d', interpret ⟨environment, current, .device d⟩ program =
          (⟨final, here, .device d'⟩, abort) ∧
        ((∀ n, d.accepts n = true) → d'.sent = d.sent ++ printed)) ∧
      ∀ d now, Underway ⟨environment, current, .device d⟩ program now →
        now.output.captured = "" ∧
          ∀ output, ∃ shown, Underway ⟨environment, current, output⟩ program
            { now with output := shown } := by
  obtain ⟨lines, final, here, abort, hend⟩ := interpret_blind environment current program
  refine ⟨String.join (lines.map (· ++ "\n")), final, here, abort, fun text => ?_, fun d => ?_, ?_⟩
  · rw [← Output.printAll_buffer]
    exact hend (.buffer text)
  · obtain ⟨d', hd'⟩ := Output.exists_device_printAll d lines
    refine ⟨d', hd' ▸ hend (.device d), fun hworks => ?_⟩
    have hworking : (Output.device d).Working := hworks
    have hsent := hworking.text_printAll lines
    rwa [hd'] at hsent
  · intro d now hunderway
    obtain ⟨shown, hnow, hother⟩ := hunderway.redirected
    obtain ⟨d', hd'⟩ := Output.exists_device_printAll d shown
    refine ⟨?_, fun output => ⟨_, hother output⟩⟩
    rw [hnow, hd']
    rfl

/-- A block that changes a global and prints twice, and an undefined variable behind it. The first
of the two writes is refused. -/
theorem outputs_never_matter_refused :
    let a : Token := ⟨.identifier, "a", .nil, 1⟩
    let b : Token := ⟨.identifier, "b", .nil, 1⟩
    let block : Stmt := .block [.print (.name a), .evaluate (.assign a (.literal .nil)),
      .print (.name a)]
    let program : List Stmt := [block, .print (.name b)]
    let environment : Environment := ⟨[⟨[("a", .string "v")], none⟩]⟩
    let refusing : Device := ⟨fun n => n ≠ 0, 0, ""⟩
    let now : Machine := ⟨⟨[⟨[], some .global⟩, ⟨[("a", .string "v")], none⟩]⟩, 1,
      .device (refusing.write "v\n")⟩
    (∀ n, Device.working.accepts n = true) ∧
      Underway ⟨environment, .global, .device refusing⟩ program now ∧ now.output.captured = "" ∧
      (∃ d, interpret ⟨environment, .global, .device .working⟩ program =
        (⟨⟨[⟨[("a", .nil)], none⟩]⟩, .global, .device d⟩, some (.runtime (.undefinedVariable b))) ∧
        d.sent = "v\nnil\n") ∧
      ∃ d, interpret ⟨environment, .global, .device refusing⟩ program =
        (⟨⟨[⟨[("a", .nil)], none⟩]⟩, .global, .device d⟩,
          some (.runtime (.undefinedVariable b))) := by
  intro a b block program environment refusing now
  have hworks : ∀ n, Device.working.accepts n = true := fun _ => rfl
  have hunderway : Underway ⟨environment, .global, .device refusing⟩ program now :=
    .inside (.later rfl (.here now _))
  obtain ⟨printed, final, here, abort, hbuffer, hdevice, hnow⟩ :=
    outputs_never_matter environment .global program
  have hrun : interpret ⟨environment, .global, .buffer ""⟩ program =
      (⟨⟨[⟨[("a", .nil)], none⟩]⟩, .global, .buffer "v\nnil\n"⟩,
        some (.runtime (.undefinedVariable b))) := rfl
  obtain ⟨hmachine, rfl⟩ := Prod.mk.inj ((hbuffer "").symm.trans hrun)
  obtain ⟨rfl, rfl, hprinted⟩ := Machine.mk.inj hmachine
  obtain ⟨accepted, haccepted, hsent⟩ := hdevice .working
  obtain ⟨refused, hrefused, -⟩ := hdevice refusing
  refine ⟨hworks, hunderway, (hnow refusing now hunderway).1, ⟨accepted, haccepted, ?_⟩,
    refused, hrefused⟩
  exact (hsent hworks).trans (Output.buffer.inj hprinted)

end Machine
end BlockScript
