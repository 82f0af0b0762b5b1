import BlockScript.Proofs.Source.Layout

/-!
The lines of tokens and lexical errors. Each is on the line that the source has reached where the
segment it stands for ends, so that no token is on an earlier line than the one before it, and no
error either.
-/
namespace BlockScript.Source

section Reading
variable {α : Type} {read : Segment × Nat → Option α} {pieces : List Segment} {line k : Nat} {a : α}

/-- What is read as the item with an index is read off a segment, with the line on which the text up
to its end closes, and the items before it are read off the segments before. -/
private theorem exists_of_getElem?_placed (h : ((placed line pieces).filterMap read)[k]? = some a) :
    ∃ before s after, pieces = before ++ s :: after ∧
      k = ((placed line before).filterMap read).length ∧
      read (s, line + newlines (before.flatMap Segment.text ++ s.text)) = some a := by
  induction pieces generalizing line k with
  | nil => cases h
  | cons first rest ih =>
    have later : ∀ {k : Nat},
        ((placed (line + newlines first.text) rest).filterMap read)[k]? = some a →
        ∃ before s after, first :: rest = first :: before ++ s :: after ∧
          k = ((placed (line + newlines first.text) before).filterMap read).length ∧
          read (s, line + newlines ((first :: before).flatMap Segment.text ++ s.text)) = some a := by
      intro k hk
      obtain ⟨before, s, after, rfl, hlength, hread⟩ := ih hk
      refine ⟨before, s, after, rfl, hlength, ?_⟩
      rwa [List.flatMap_cons, List.append_assoc, newlines_append first.text, ← Nat.add_assoc]
    rw [placed] at h
    cases hfirst : read (first, line + newlines first.text) with
    | none =>
      rw [List.filterMap_cons_none hfirst] at h
      obtain ⟨before, s, after, hsplit, hlength, hread⟩ := later h
      refine ⟨first :: before, s, after, hsplit, ?_, hread⟩
      rw [placed, List.filterMap_cons_none hfirst, hlength]
    | some b =>
      rw [List.filterMap_cons_some hfirst] at h
      cases k with
      | zero =>
        rw [List.getElem?_cons_zero] at h
        cases h
        exact ⟨[], first, rest, rfl, rfl, hfirst⟩
      | succ k =>
        obtain ⟨before, s, after, hsplit, hlength, hread⟩ := later h
        refine ⟨first :: before, s, after, hsplit, ?_, hread⟩
        rw [placed, List.filterMap_cons_some hfirst, List.length_cons, hlength]

/-- Segments end on later and later lines. -/
private theorem pairwise_placed (line : Nat) (pieces : List Segment) :
    (placed line pieces).Pairwise fun first second => first.2 ≤ second.2 := by
  induction pieces generalizing line with
  | nil => exact .nil
  | cons s rest ih =>
    rw [placed, List.pairwise_cons]
    refine ⟨?_, ih _⟩
    rintro ⟨next, last⟩ hmem
    obtain ⟨before, after, -, rfl⟩ := exists_of_mem_placed hmem
    exact Nat.le_add_right _ _

/-- So what is read off them, if it keeps the lines, is on later and later lines. -/
private theorem pairwise_filterMap_placed {lineOf : α → Nat}
    (h : ∀ piece, ∀ a ∈ read piece, lineOf a = piece.2) (line : Nat) (pieces : List Segment) :
    (((placed line pieces).filterMap read).map lineOf).Pairwise (· ≤ ·) := by
  rw [List.pairwise_map]
  apply (pairwise_placed line pieces).filterMap
  intro first second hle a ha b hb
  rw [h first a ha, h second b hb]
  exact hle

end Reading

private theorem line_of_mem_token? {piece : Segment × Nat} {t : Token}
    (h : t ∈ Segment.token? piece) :
    t.line = piece.2 := by
  obtain ⟨s, line⟩ := piece
  cases s with
  | lexeme kind text =>
    obtain ⟨value, -, rfl⟩ := Option.map_eq_some_iff.mp h
    rfl
  | blank | comment | stray | unclosed => cases h

private theorem line_of_mem_error? {piece : Segment × Nat} {e : LexicalError}
    (h : e ∈ Segment.error? piece) : e.line = piece.2 := by
  obtain ⟨s, line⟩ := piece
  cases s with
  | lexeme kind text =>
    obtain ⟨-, ⟨⟩⟩ := Option.ite_none_right_eq_some.mp h
    rfl
  | stray | unclosed =>
    cases h
    rfl
  | blank | comment => cases h

section Places
variable {source : List Char} {k : Nat}

/-- A token is on the line on which its lexeme ends. -/
private theorem exists_of_getElem?_lexed {t : Token} (h : (lexed 1 source)[k]? = some t) :
    ∃ before text after, segments source = before ++ .lexeme t.kind text :: after ∧
      k = (before.filterMap Segment.lexeme?).length ∧ t.lexeme = String.ofList text ∧
      t.line = 1 + newlines (before.flatMap Segment.text ++ text) := by
  obtain ⟨before, s, after, hsplit, hlength, htoken⟩ := exists_of_getElem?_placed h
  cases s with
  | lexeme kind text =>
    obtain ⟨value, -, rfl⟩ := Option.map_eq_some_iff.mp htoken
    refine ⟨before, text, after, hsplit, ?_, rfl, rfl⟩
    have hlexemes : ∀ kind text, .lexeme kind text ∈ before → Lexeme kind text := by
      intro kind text hmem
      apply lexeme_of_mem_segments
      rw [hsplit]
      exact List.mem_append_left _ hmem
    rw [hlength, ← filterMap_token?_placed 1 hlexemes, List.length_map]
  | blank | comment | stray | unclosed => cases htoken

/-- A stray character is reported on its line, and an unclosed string on the last one. -/
private theorem exists_of_getElem?_faults {e : LexicalError} (h : (faults 1 source)[k]? = some e) :
    ∃ before s after, segments source = before ++ s :: after ∧
      k = (before.filterMap Segment.complaint?).length ∧
      (((∃ c, s = .stray c) ∧ e.fault = .unexpectedCharacter ∧
          e.line = 1 + newlines (before.flatMap Segment.text)) ∨
        ((∃ text, s = .unclosed text) ∧ e.fault = .unterminatedString ∧
          e.line = 1 + newlines source)) := by
  obtain ⟨before, s, after, hsplit, hlength, herror⟩ := exists_of_getElem?_placed h
  have hcut : Cut source (before ++ s :: after) := hsplit ▸ cut_segments source
  have hlexemes : ∀ kind text, .lexeme kind text ∈ segments source → Lexeme kind text :=
    fun _ _ => lexeme_of_mem_segments
  rw [hsplit] at hlexemes
  refine ⟨before, s, after, hsplit, ?_, ?_⟩
  · rw [hlength, ← filterMap_error?_placed 1 fun kind text hmem =>
      hlexemes kind text (List.mem_append_left _ hmem), List.length_map]
  cases s with
  | lexeme kind text =>
    obtain ⟨hvalue, -⟩ := Option.ite_none_right_eq_some.mp herror
    exact absurd hvalue (hlexemes kind text (by simp)).literal?_ne_none
  | stray c =>
    cases herror
    have hnewline : newlines [c] = 0 := by
      cases hcut.fits with
      | stray hblank _ =>
        rw [newlines, List.count_eq_zero, List.mem_singleton]
        exact fun hc => hblank (.inr (.inr (.inr hc.symm)))
    have hline : newlines (before.flatMap Segment.text ++ [c]) =
        newlines (before.flatMap Segment.text) := by
      rw [newlines_append, hnewline, Nat.add_zero]
    exact .inl ⟨⟨c, rfl⟩, rfl, congrArg (1 + ·) hline⟩
  | unclosed text =>
    cases herror
    refine .inr ⟨⟨text, rfl⟩, rfl, ?_⟩
    -- Nothing follows an unclosed string, so that it ends where the source does.
    have hfits := hcut.fits
    generalize hrest : after.flatMap Segment.text = rest at hfits
    cases hfits
    rw [hcut.source_eq, List.flatMap_append, List.flatMap_cons, hrest, List.append_nil]
  | blank | comment => cases herror

end Places

/-- Exact lines. A source is cut in one way. Its tokens but the last are the lexemes of the cut in
order, each on the line that counts the newlines up to its end, and the last one, the end of input,
counts those of the whole source. A stray character is reported on the line that counts the newlines
before it, and an unclosed string on the line of the end of input. So lines never decrease. -/
theorem scan_lines_exact (source : String) :
    ∃ pieces tokens last, (∀ other, Cut source.toList other ↔ other = pieces) ∧
      (scan source).tokens = tokens ++ [last] ∧
      (∀ k t, tokens[k]? = some t →
        ∃ before text after, pieces = before ++ .lexeme t.kind text :: after ∧
          k = (before.filterMap Segment.lexeme?).length ∧ t.lexeme = String.ofList text ∧
          t.line = 1 + (before.flatMap Segment.text ++ text).count '\n') ∧
      last.kind = .endOfInput ∧ last.line = 1 + source.toList.count '\n' ∧
      (∀ k e, (scan source).errors[k]? = some e →
        ∃ before s after, pieces = before ++ s :: after ∧
          k = (before.filterMap Segment.complaint?).length ∧
          (((∃ c, s = .stray c) ∧ e.fault = .unexpectedCharacter ∧
              e.line = 1 + (before.flatMap Segment.text).count '\n') ∨
            ((∃ text, s = .unclosed text) ∧ e.fault = .unterminatedString ∧
              e.line = last.line))) ∧
      ((scan source).tokens.map Token.line).Pairwise (· ≤ ·) ∧
      ((scan source).errors.map LexicalError.line).Pairwise (· ≤ ·) := by
  refine ⟨segments source.toList, lexed 1 source.toList,
    .endOfInput (1 + newlines source.toList), fun _ => cut_iff, rfl,
    fun _ _ => exists_of_getElem?_lexed, rfl, rfl, fun _ _ => exists_of_getElem?_faults, ?_, ?_⟩
  · rw [scan, scanFrom_eq, List.map_append, List.pairwise_append]
    refine ⟨pairwise_filterMap_placed (fun _ _ => line_of_mem_token?) _ _,
      List.pairwise_singleton _ _, ?_⟩
    intro line hline other hother
    obtain ⟨t, ht, rfl⟩ := List.mem_map.mp hline
    obtain rfl : other = 1 + newlines source.toList := List.mem_singleton.mp hother
    exact (line_of_mem_lexed ht).2
  · exact pairwise_filterMap_placed (fun _ _ => line_of_mem_error?) _ _

/-- A string over two lines is on the line of its closing quote, a comment is on no other line than
the lexeme before it, and what is unclosed is on the last line. -/
example : let scanned := scan "a // @\n\"b\nc\" @ d\n\"e\n"
    scanned.tokens.map (fun t => (t.lexeme, t.line)) =
        [("a", 1), ("\"b\nc\"", 3), ("d", 3), ("", 5)] ∧
      scanned.errors = [⟨.unexpectedCharacter, 3⟩, ⟨.unterminatedString, 5⟩] := by
  decide +kernel

end BlockScript.Source
