import BlockScript.Proofs.Evaluation.Relabeling
import BlockScript.Proofs.Grammar.MovingPrograms
import BlockScript.Proofs.Session.Reports
import BlockScript.Proofs.Source.Layout

/-!
Layout does not matter to a run. Sources whose tokens and lexical errors differ in nothing but
their lines are read as programs that differ in nothing else, and so their runs do the same and
report the same on other lines.
-/
namespace BlockScript

theorem Token.unplaced_keepsText : Token.KeepsText Token.unplaced :=
  ⟨fun _ => rfl, fun _ => rfl, fun _ => rfl⟩

/-- A diagnostic as if it stood on line zero. -/
def Diagnostic.unplaced (d : Diagnostic) : Diagnostic := { d with line := 0 }

/-- A report from a source that is all on line zero. -/
def Event.unplaced : Event → Event
  | static d => static d.unplaced
  | aborted abort => aborted (abort.mapToken Token.unplaced)

namespace Source
open Program

variable {source other : String}

theorem SameButLines.symm (h : SameButLines source other) : SameButLines other source :=
  ⟨h.tokens.symm, h.errors.symm⟩

/-- What is read from the tokens of a source, if they all are on line zero. -/
private theorem ofTokens_unplaced (source : String) :
    ofTokens ((scan source).tokens.map Token.unplaced) =
      ((ofTokens (scan source).tokens).map (List.map (Stmt.mapTokens Token.unplaced))).mapError
        (List.map (SyntaxError.mapToken Token.unplaced)) := by
  apply ofTokens_map Token.unplaced_keepsText
  rw [scan, scanFrom_eq, lastToken, lastToken, List.map_append, List.map_singleton]
  simp [Token.unplaced, Token.endOfInput]

private theorem syntaxErrors_unplaced (source : String) :
    syntaxErrors ((scan source).tokens.map Token.unplaced) =
      (syntaxErrors (scan source).tokens).map (SyntaxError.mapToken Token.unplaced) := by
  rw [syntaxErrors, syntaxErrors, ofTokens_unplaced]
  cases ofTokens (scan source).tokens <;> rfl

private theorem SameButLines.staticErrors (h : SameButLines source other) :
    (staticErrors source).map Diagnostic.unplaced =
      (staticErrors other).map Diagnostic.unplaced := by
  have hlexical (errors : List LexicalError) :
      (errors.map fun e => Diagnostic.mk e.line "" e.fault.message).map Diagnostic.unplaced =
        (errors.map LexicalError.unplaced).map fun e => ⟨0, "", e.fault.message⟩ := by
    rw [List.map_map, List.map_map]
    rfl
  have hsyntax (errors : List SyntaxError) :
      (errors.map fun e => Diagnostic.mk e.token.line e.token.location e.fault.message).map
          Diagnostic.unplaced =
        (errors.map (SyntaxError.mapToken Token.unplaced)).map fun e =>
          ⟨0, e.token.location, e.fault.message⟩ := by
    rw [List.map_map, List.map_map]
    rfl
  rw [Source.staticErrors, Source.staticErrors, List.map_append, List.map_append, hlexical,
    hlexical, hsyntax, hsyntax, h.errors, ← syntaxErrors_unplaced, ← syntaxErrors_unplaced, h.tokens]

private theorem SameButLines.reads (h : SameButLines source other) {program : List Stmt}
    (hr : Reads source program) : ∃ program', Reads other program' ∧
      Stmt.mapAll Token.unplaced program' = Stmt.mapAll Token.unplaced program := by
  have hscanned : (scan other).errors = [] := by
    rw [← List.map_eq_nil_iff, ← h.errors, hr.scanned, List.map_nil]
  have hparsed : ofTokens ((scan source).tokens.map Token.unplaced) =
      .ok (program.map (Stmt.mapTokens Token.unplaced)) := by
    rw [ofTokens_unplaced, hr.parsed]
    rfl
  rw [h.tokens, ofTokens_unplaced] at hparsed
  cases hother : ofTokens (scan other).tokens with
  | error errors =>
    rw [hother] at hparsed
    cases hparsed
  | ok program' =>
    rw [hother] at hparsed
    refine ⟨program', ⟨hscanned, hother⟩, ?_⟩
    rw [Stmt.mapAll_eq_map, Stmt.mapAll_eq_map]
    exact Except.ok.inj hparsed

private theorem SameButLines.faulty (h : SameButLines source other) (hf : Faulty source) :
    Faulty other := by
  rcases faulty_or_reads other with hother | ⟨program, hr⟩
  · exact hother
  · obtain ⟨program', hr', -⟩ := h.symm.reads hr
    exact absurd hf hr'.not_faulty

end Source

namespace Machine
open Source

/-- Runs of sources that are the same but for their lines. -/
theorem run_of_sameButLines {source other : String} (h : SameButLines source other) (m : Machine) :
    (m.run source).1 = (m.run other).1 ∧
      (m.run source).2.map Event.unplaced = (m.run other).2.map Event.unplaced := by
  rcases faulty_or_reads source with hf | ⟨program, hr⟩
  · have hstatic : Event.unplaced ∘ Event.static = Event.static ∘ Diagnostic.unplaced := rfl
    rw [run_of_faulty hf, run_of_faulty (h.faulty hf), List.map_map, List.map_map, hstatic,
      ← List.map_map, ← List.map_map, h.staticErrors]
    exact ⟨rfl, rfl⟩
  · obtain ⟨program', hr', hsame⟩ := h.reads hr
    have hrun : m.interpret (Stmt.mapAll Token.unplaced program) =
        m.interpret (Stmt.mapAll Token.unplaced program') := congrArg m.interpret hsame.symm
    have hunplaced := interpret_mapAll Token.unplaced_keepsText m
    rw [hunplaced, hunplaced] at hrun
    obtain ⟨hmachine, habort⟩ := Prod.mk.inj hrun
    have hevents (abort : Option Abort) :
        ((abort.map Event.aborted).toList).map Event.unplaced =
          ((abort.map (Abort.mapToken Token.unplaced)).map Event.aborted).toList := by
      cases abort <;> rfl
    rw [run_of_reads hr, run_of_reads hr', hevents, hevents, habort]
    exact ⟨hmachine, rfl⟩

/-- Layout does not matter. The lexemes that a source is cut into are those of its tokens, in order.
Blanks and closed comments put right before or right behind one of them, if a blank comes first,
change the tokens, the lexical errors, and what a run does and reports in nothing but lines. -/
theorem run_of_layout (source changed : String) (before after : List Segment) (kind : TokenKind)
    (lexeme gap : List Char)
    (hsource : segments source.toList = before ++ .lexeme kind lexeme :: after)
    (hgap : Layout gap) (hstart : ∃ c ∈ gap.head?, c = ' ' ∨ c = '\t' ∨ c = '\x0d' ∨ c = '\n')
    (hchanged :
      changed.toList = before.flatMap Segment.text ++ gap ++ lexeme ++ after.flatMap Segment.text ∨
        changed.toList =
          before.flatMap Segment.text ++ lexeme ++ gap ++ after.flatMap Segment.text) :
    (scan changed).tokens.map (fun t => (t.kind, t.lexeme, t.literal)) =
        (scan source).tokens.map (fun t => (t.kind, t.lexeme, t.literal)) ∧
      (scan changed).errors.map (fun e => e.fault.message) =
        (scan source).errors.map (fun e => e.fault.message) ∧
      ∀ m : Machine, (m.run changed).1 = (m.run source).1 ∧
        (m.run changed).2.map Event.unplaced = (m.run source).2.map Event.unplaced := by
  obtain ⟨c, hc, hblank⟩ := hstart
  obtain ⟨filling, hfilling, hbefore, hafter⟩ :=
    segments_insert (cut_iff.mpr hsource.symm) hgap ⟨c, hc, isBlank_iff.mpr hblank⟩
  have h : SameButLines changed source := by
    rcases hchanged with hchanged | hchanged
    · rw [← hchanged] at hbefore
      exact sameButLines_of_layout hfilling hsource hbefore
    · rw [← hchanged] at hafter
      rw [List.append_cons] at hsource hafter
      exact sameButLines_of_layout hfilling hsource hafter
  refine ⟨?_, ?_, run_of_sameButLines h⟩
  · have htokens := congrArg (List.map fun t => (t.kind, t.lexeme, t.literal)) h.tokens
    rwa [List.map_map, List.map_map] at htokens
  · have herrors := congrArg (List.map fun e => e.fault.message) h.errors
    rwa [List.map_map, List.map_map] at herrors

/-- A comment on a line of its own, between a number and the slash behind it. -/
theorem run_of_layout_division :
    (scan "print 7\n//half\n/2;").tokens.map (fun t => (t.kind, t.lexeme, t.literal)) =
        (scan "print 7/2;").tokens.map (fun t => (t.kind, t.lexeme, t.literal)) ∧
      ∀ m : Machine, (m.run "print 7\n//half\n/2;").1 = (m.run "print 7/2;").1 ∧
        (m.run "print 7\n//half\n/2;").2.map Event.unplaced =
          (m.run "print 7/2;").2.map Event.unplaced := by
  have hsource : segments "print 7/2;".toList =
      [.lexeme (.keyword .printWord) "print".toList, .blank ' '] ++ .lexeme .number ['7'] ::
        [.lexeme (.symbol .slash) ['/'], .lexeme .number ['2'],
          .lexeme (.symbol .semicolon) [';']] := by
    decide +kernel
  have hinside : '\n' ∉ "half".toList := by decide
  have hgap : Layout "\n//half\n".toList := .blank (by decide) (.comment hinside .nil)
  have h := run_of_layout "print 7/2;" "print 7\n//half\n/2;" _ _ _ _ _ hsource hgap
    ⟨'\n', rfl, by decide⟩ (.inr (by decide +kernel))
  exact ⟨h.1, h.2.2⟩

end Machine
end BlockScript
