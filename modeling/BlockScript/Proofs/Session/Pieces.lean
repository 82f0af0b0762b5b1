import BlockScript.Proofs.Evaluation.Relabeling
import BlockScript.Proofs.Grammar.Programs
import BlockScript.Proofs.Source.Joining
import BlockScript.Session

/-!
Running sources one by one and running them as one source. A newline between two sources keeps
their tokens and their statements apart, and a program runs as its first part and then the rest,
so that only the lines of later sources are counted from another start.
-/
namespace BlockScript

private theorem Token.later_keepsText (k : Nat) : Token.KeepsText (Token.later k) :=
  ⟨fun _ => rfl, fun _ => rfl, fun _ => rfl⟩

namespace Source

theorem body_scan (source : String) :
    Grammar.body (scan source).tokens = lexed 1 source.toList := by
  rw [scan, scanFrom_eq]
  apply Grammar.body_append
  · exact fun t => kind_ne_end_of_mem_lexed
  · intro t ht
    cases ht
    exact .inl rfl

theorem reads_iff {source : String} {program : List Stmt} :
    Reads source program ↔
      faults 1 source.toList = [] ∧ Grammar.Declarations (lexed 1 source.toList) program [] := by
  rw [← body_scan, ← Grammar.ofTokens_eq_ok_iff]
  exact ⟨fun h => ⟨h.scanned, h.parsed⟩, fun h => ⟨h.1, h.2⟩⟩

private theorem Reads.unclosed_not_mem {source : String} {program : List Stmt}
    (h : Reads source program) (text : List Char) : .unclosed text ∉ segments source.toList := by
  have hfault : ∀ e ∈ faults 1 source.toList, e.fault ≠ .unterminatedString := by
    intro e he
    rw [(reads_iff.mp h).1] at he
    cases he
  exact unclosed_not_mem_segments hfault text

/-- Two sources joined by a newline read as their programs one after the other. -/
private theorem Reads.join {first second : String} {program rest : List Stmt}
    (h : Reads first program) (h' : Reads second rest) :
    Reads (first ++ "\n" ++ second)
      (program ++ Stmt.mapAll (Token.later (newlines first.toList + 1)) rest) := by
  have hs := h.unclosed_not_mem
  have htext : (first ++ "\n" ++ second).toList = first.toList ++ '\n' :: second.toList := by simp
  obtain ⟨hf, hd⟩ := reads_iff.mp h
  obtain ⟨hf', hd'⟩ := reads_iff.mp h'
  rw [reads_iff, htext, faults_join hs, lexed_join hs, Nat.add_assoc, faults_add, lexed_add, hf,
    hf']
  exact ⟨rfl, hd.append (hd'.mapTokens (Token.later_keepsText _))⟩

private theorem reads_empty : Reads "" [] := by
  rw [reads_iff, String.toList_empty, faults_nil, lexed_nil]
  exact ⟨rfl, .nil⟩

/-- Sources without static errors have none when they are joined. -/
private theorem exists_reads_joined {sources : List String}
    (h : ∀ source ∈ sources, ∃ program, Reads source program) :
    ∃ program, Reads ("\n".intercalate sources) program := by
  induction sources with
  | nil => exact ⟨[], reads_empty⟩
  | cons source sources ih =>
    obtain ⟨program, hread⟩ := h source List.mem_cons_self
    by_cases hs : sources = []
    · rw [hs, String.intercalate_singleton]
      exact ⟨program, hread⟩
    · obtain ⟨rest, hrest⟩ := ih fun other hother => h other (List.mem_cons_of_mem _ hother)
      rw [String.intercalate_cons_of_ne_nil hs]
      exact ⟨_, hread.join hrest⟩

end Source

namespace Machine

theorem executeAll_append (program rest : List Stmt) :
    executeAll (program ++ rest) = executeAll program >>= fun _ => executeAll rest := by
  induction program with
  | nil => rfl
  | cons first program ih =>
    rw [List.cons_append, executeAll, executeAll, ih, bind_assoc]

/-- Programs run in sequence, and nothing runs after one that was stopped. -/
theorem interpret_append (m : Machine) (program rest : List Stmt) :
    m.interpret (program ++ rest) =
      match m.interpret program with
      | (next, none) => next.interpret rest
      | (next, some abort) => (next, some abort) := by
  have hbind : executeAll (program ++ rest) m =
      EStateM.bind (executeAll program) (fun _ => executeAll rest) m := by
    rw [executeAll_append]
    rfl
  rw [interpret, hbind, EStateM.bind, interpret]
  cases executeAll program m <;> rfl

end Machine

/-- A report from a source that starts further down. -/
def Event.later (k : Nat) : Event → Event
  | static d => static { d with line := d.line + k }
  | aborted abort => aborted (abort.mapToken (Token.later k))

private theorem Event.later_zero (e : Event) : e.later 0 = e := by
  cases e with
  | static d => rfl
  | aborted abort =>
    cases abort with
    | deadScope => rfl
    | runtime error => cases error <;> rfl

private theorem Event.map_later_zero (events : List Event) :
    events.map (Event.later 0) = events := by
  rw [funext later_zero]
  exact List.map_id' events

private theorem Event.later_later (j k : Nat) (e : Event) :
    (e.later j).later k = e.later (j + k) := by
  cases e with
  | static d => simp only [later, Nat.add_assoc]
  | aborted abort =>
    cases abort with
    | deadScope => rfl
    | runtime error =>
      cases error <;>
        simp only [later, Abort.mapToken, RuntimeError.mapToken, Token.later, Nat.add_assoc]

/-- What sources did that ran in turn: the machine they left, the sources that ran to their end,
and what the next one reported. -/
structure Turns where
  machine : Machine
  finished : List String
  events : List Event

/-- The text of sources that another one follows, each closed by the newline before the next. -/
def Source.textBefore (sources : List String) : List Char :=
  sources.flatMap fun source => source.toList ++ ['\n']

private theorem Source.newlines_textBefore_cons (source : String) (rest : List String) :
    newlines (textBefore (source :: rest)) =
      newlines (textBefore rest) + (newlines source.toList + 1) := by
  rw [textBefore, List.flatMap_cons, newlines_append, newlines_append, Nat.add_comm]
  rfl

namespace Machine

/-- Runs sources in turn, up to the first that reports something. -/
def runInTurn (m : Machine) : List String → Turns
  | [] => ⟨m, [], []⟩
  | source :: rest =>
    match m.run source with
    | (next, []) =>
      let turns := next.runInTurn rest
      { turns with finished := source :: turns.finished }
    | (next, events) => ⟨next, [], events⟩

private theorem runInTurn_of_silent {m next : Machine} {source : String}
    (h : m.run source = (next, [])) (rest : List String) :
    m.runInTurn (source :: rest) =
      ⟨(next.runInTurn rest).machine, source :: (next.runInTurn rest).finished,
        (next.runInTurn rest).events⟩ := by
  rw [runInTurn, h]

private theorem runInTurn_of_reported {m next : Machine} {source : String} {event : Event}
    {events : List Event} (h : m.run source = (next, event :: events)) (rest : List String) :
    m.runInTurn (source :: rest) = ⟨next, [], event :: events⟩ := by
  rw [runInTurn, h]

/-- Two sources joined by a newline run as the first and, if it reports nothing, the second, with
its lines counted on. -/
theorem run_join {first second : String} {program rest : List Stmt}
    (h : Source.Reads first program) (h' : Source.Reads second rest) (m : Machine) :
    m.run (first ++ "\n" ++ second) =
      match m.run first with
      | (next, []) => ((next.run second).1,
          (next.run second).2.map (Event.later (Source.newlines first.toList + 1)))
      | (next, events) => (next, events) := by
  rw [run_of_reads (h.join h'), run_of_reads h, interpret_append]
  rcases m.interpret program with ⟨next, _ | abort⟩
  · have hkeeps := Token.later_keepsText (Source.newlines first.toList + 1)
    simp only [interpret_mapAll hkeeps, run_of_reads h', Option.map_none, Option.toList_none]
    cases (next.interpret rest).2 <;> rfl
  · rfl

/-- Where a report comes from: after the sources that finished there is the one that made it. -/
private theorem runInTurn_before (m : Machine) (sources : List String)
    (h : (m.runInTurn sources).events ≠ []) : ∃ piece rest after,
      sources = (m.runInTurn sources).finished ++ piece :: rest ∧
        ("\n".intercalate sources).toList =
          Source.textBefore (m.runInTurn sources).finished ++ piece.toList ++ after := by
  induction sources generalizing m with
  | nil => exact absurd rfl h
  | cons source sources ih =>
    rcases hrun : m.run source with ⟨next, _ | ⟨event, events⟩⟩
    · rw [runInTurn_of_silent hrun] at h ⊢
      obtain ⟨piece, rest, after, hsources, htext⟩ := ih next h
      refine ⟨piece, rest, after, congrArg (source :: ·) hsources, ?_⟩
      have hs : sources ≠ [] := by
        rintro rfl
        exact h rfl
      rw [String.intercalate_cons_of_ne_nil hs, String.toList_append, htext]
      simp [Source.textBefore]
    · rw [runInTurn_of_reported hrun]
      by_cases hs : sources = []
      · exact ⟨source, sources, [], rfl, by simp [hs, Source.textBefore]⟩
      · refine ⟨source, sources, '\n' :: ("\n".intercalate sources).toList, rfl, ?_⟩
        rw [String.intercalate_cons_of_ne_nil hs]
        simp [Source.textBefore]

/-- Pieces of a program. Sources without static errors leave the same machine, with the same
output and variables, whether they run in turn until one reports an error or joined by newlines as
one source; the one error then counts its line from the newlines before its piece. -/
theorem run_joined_eq_runInTurn (m : Machine) (sources : List String)
    (h : ∀ source ∈ sources, ∃ program, Source.Reads source program) :
    m.run ("\n".intercalate sources) = ((m.runInTurn sources).machine,
      (m.runInTurn sources).events.map
        (Event.later (Source.newlines (Source.textBefore (m.runInTurn sources).finished)))) ∧
    ((m.runInTurn sources).events ≠ [] → ∃ piece rest after,
      sources = (m.runInTurn sources).finished ++ piece :: rest ∧
        ("\n".intercalate sources).toList =
          Source.textBefore (m.runInTurn sources).finished ++ piece.toList ++ after) := by
  refine ⟨?_, m.runInTurn_before sources⟩
  induction sources generalizing m with
  | nil => exact run_of_reads Source.reads_empty m
  | cons source sources ih =>
    obtain ⟨program, hread⟩ := h source List.mem_cons_self
    have hsources : ∀ other ∈ sources, ∃ program, Source.Reads other program :=
      fun other hother => h other (List.mem_cons_of_mem _ hother)
    obtain ⟨rest, hrest⟩ := Source.exists_reads_joined hsources
    rcases hrun : m.run source with ⟨next, _ | ⟨event, events⟩⟩
    · rw [runInTurn_of_silent hrun, Source.newlines_textBefore_cons]
      by_cases hs : sources = []
      · subst hs
        rw [String.intercalate_singleton, hrun]
        rfl
      · rw [String.intercalate_cons_of_ne_nil hs, run_join hread hrest, hrun]
        simp only [ih next hsources, List.map_map]
        congr 2
        funext e
        exact Event.later_later _ _ e
    · have hwhole : m.run ("\n".intercalate (source :: sources)) = (next, event :: events) := by
        by_cases hs : sources = []
        · rw [hs, String.intercalate_singleton, hrun]
        · rw [String.intercalate_cons_of_ne_nil hs, run_join hread hrest, hrun]
      rw [hwhole, runInTurn_of_reported hrun]
      exact congrArg (Prod.mk next) (Event.map_later_zero (event :: events)).symm

/-- A piece that fails after one with a string over two lines. -/
theorem run_joined_unbound :
    let pieces := ["print \"a\nb\";", "c;\nprint nil;"]
    let unbound : Token := ⟨.identifier, "c", .nil, 3⟩
    (∀ piece ∈ pieces, ∃ program, Source.Reads piece program) ∧
      (new (.buffer "")).run ("\n".intercalate pieces) =
        (⟨.empty, .global, .buffer "a\nb\n"⟩,
          [.aborted (.runtime (.undefinedVariable unbound))]) := by
  intro pieces unbound
  let name : Token := ⟨.identifier, "c", .nil, 1⟩
  let word : Token := ⟨.keyword .nilWord, "nil", .nil, 2⟩
  let shown : Token := ⟨.string, "\"a\nb\"", .string "a\nb", 2⟩
  have hfirst : Source.Reads "print \"a\nb\";" [.print (.literal (.string "a\nb"))] := by
    have hlexed : Source.lexed 1 "print \"a\nb\";".toList =
        [⟨.keyword .printWord, "print", .nil, 1⟩, shown, ⟨.symbol .semicolon, ";", .nil, 2⟩] := by
      decide +kernel
    rw [Source.reads_iff, hlexed]
    have hshown : Grammar.Derives .assignment [shown] (.literal shown.literal) [] :=
      .equality (.equality_of_primary (.literal (.string rfl)))
    exact ⟨by decide +kernel, .cons (.print rfl hshown rfl) .nil⟩
  have hsecond : Source.Reads "c;\nprint nil;"
      [.evaluate (.name name), .print (.literal .nil)] := by
    have hlexed : Source.lexed 1 "c;\nprint nil;".toList =
        [name, ⟨.symbol .semicolon, ";", .nil, 1⟩, ⟨.keyword .printWord, "print", .nil, 2⟩,
          word, ⟨.symbol .semicolon, ";", .nil, 2⟩] := by
      decide +kernel
    rw [Source.reads_iff, hlexed]
    have hname : Grammar.Derives .assignment [name] (.name name) [] :=
      .equality (.equality_of_primary (.name rfl))
    have hnil : Grammar.Derives .assignment [word] (.literal .nil) [] :=
      .equality (.equality_of_primary (.literal (.nil rfl)))
    exact ⟨by decide +kernel,
      .cons (.expression hname rfl) (.cons (.print rfl hnil rfl) .nil)⟩
  have hreads : ∀ piece ∈ pieces, ∃ program, Source.Reads piece program := by
    intro piece hmem
    simp only [pieces, List.mem_cons, List.not_mem_nil, or_false] at hmem
    rcases hmem with rfl | rfl
    · exact ⟨_, hfirst⟩
    · exact ⟨_, hsecond⟩
  have hturns : (new (.buffer "")).runInTurn pieces =
      ⟨⟨.empty, .global, .buffer "a\nb\n"⟩, ["print \"a\nb\";"],
        [.aborted (.runtime (.undefinedVariable name))]⟩ := by
    rw [runInTurn_of_silent (run_of_reads hfirst _),
      runInTurn_of_reported (run_of_reads hsecond _)]
    rfl
  have hrun := (run_joined_eq_runInTurn (new (.buffer "")) pieces hreads).1
  rw [hturns] at hrun
  exact ⟨hreads, hrun⟩

end Machine
end BlockScript
