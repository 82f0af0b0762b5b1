import BlockScript.Proofs.Source.Munch

/-!
Scanning two texts with a newline between them. No segment but an unclosed string reaches over a
newline that follows its text, so the segments of both texts are kept, and those of the second
text move down by the lines before it.
-/
namespace BlockScript

/-- A token with its line moved down. -/
def Token.later (k : Nat) (t : Token) : Token := { t with line := t.line + k }

def LexicalError.later (k : Nat) (e : LexicalError) : LexicalError := { e with line := e.line + k }

namespace Source

theorem newlines_append (text more : List Char) :
    newlines (text ++ more) = newlines text + newlines more :=
  List.count_append

/-- A prefix without a character ends before the first such character. -/
theorem prefix_of_not_mem {run source more : List Char} {c : Char}
    (h : run <+: source ++ c :: more) (hn : c ∉ run) : run <+: source := by
  rcases List.prefix_or_prefix_of_prefix h (List.prefix_append source (c :: more)) with hr | hs
  · exact hr
  · obtain ⟨tail, rfl⟩ := hs
    have htail : tail <+: c :: more := (List.prefix_append_right_inj source).mp h
    cases tail with
    | nil => simp
    | cons d tail =>
      obtain ⟨rfl, -⟩ := List.cons_prefix_cons.mp htail
      exact absurd (List.mem_append_right source List.mem_cons_self) hn

/-- Only string literals have blanks in them. -/
theorem Lexeme.isBlank_of_mem {kind : TokenKind} {c d : Char} {tail : List Char}
    (h : Lexeme kind (c :: tail)) (hq : c ≠ '"') (hd : d ∈ c :: tail) : isBlank d = false := by
  generalize ht : c :: tail = text at h hd
  cases h with
  | symbol s =>
    have hall : ∀ s : Symbol, (s.spelling.all fun d => !isBlank d) = true := by
      intro s
      cases s <;> decide
    simpa using List.all_eq_true.mp (hall s) d hd
  | keyword k =>
    have hall : ∀ k : Keyword, (k.spelling.toList.all fun d => !isBlank d) = true := by
      intro k
      cases k <;> decide
    simpa using List.all_eq_true.mp (hall k) d hd
  | identifier hf hr =>
    rcases List.mem_cons.mp hd with rfl | hd
    · exact isBlank_of_isNameStart hf
    · exact isBlank_of_isNamePart (hr d hd)
  | string => exact absurd (List.cons.inj ht).1 hq
  | integer _ hdigits => exact isBlank_of_isDigit (hdigits d hd)
  | fraction _ hwhole _ hpart =>
    rcases List.mem_append.mp hd with hd | hd
    · exact isBlank_of_isDigit (hwhole d hd)
    · rcases List.mem_cons.mp hd with rfl | hd
      · decide
      · exact isBlank_of_isDigit (hpart d hd)

/-- What fits before a text and more fits before the text and a blank, unless the blank would
belong to it. -/
theorem Fits.before_blank {s : Segment} {rest more : List Char} {c : Char}
    (h : Fits s (rest ++ more))
    (hs : ∀ text, s ≠ .unclosed text) (hc : isBlank c = true)
    (hcomment : (∀ text, s ≠ .comment text) ∨ rest ≠ [] ∨ c = '\n') (others : List Char) :
    Fits s (rest ++ c :: others) := by
  generalize hrest : rest ++ more = source at h
  cases h with
  | @lexeme kind text _ hl hmax hslash =>
    subst hrest
    have hpart : text ++ rest <+: text ++ (rest ++ more) := ⟨more, List.append_assoc _ _ _⟩
    apply Fits.lexeme hl
    · intro other longer hother hpre
      rw [← List.append_assoc] at hpre
      obtain ⟨d, tail, rfl, -⟩ := hother.head
      by_cases hq : d = '"'
      · subst hq
        obtain ⟨d, start, rfl, -⟩ := hl.head
        obtain ⟨rfl, hpre⟩ := List.cons_prefix_cons.mp hpre
        -- both strings end at the first quote
        obtain ⟨-, inside, rfl, hin⟩ := hl.of_quote
        obtain ⟨-, run, rfl, hrun⟩ := hother.of_quote
        have hstart : run <+: inside ++ '"' :: (rest ++ c :: others) := by
          apply (List.prefix_append run ['"']).trans
          simpa using hpre
        have hall : ∀ c ∈ inside, decide (c ≠ '"') = true :=
          fun c hc => decide_eq_true (ne_of_mem_of_not_mem hc hin)
        have hlen := length_le_takeWhile hstart
          fun c hc => decide_eq_true (ne_of_mem_of_not_mem hc hrun)
        rw [(span_append hall (by simp)).1] at hlen
        simpa using hlen
      · have hno : c ∉ d :: tail := by
          intro hmem
          rw [hother.isBlank_of_mem hq hmem] at hc
          cases hc
        exact hmax other _ hother ((prefix_of_not_mem hpre hno).trans hpart)
    · intro hpre
      rw [← List.append_assoc] at hpre
      have hno : c ∉ ['/', '/'] := by
        rintro hmem
        have hslash : c = '/' := by simpa using hmem
        rw [hslash] at hc
        exact absurd hc (by decide)
      exact hslash ((prefix_of_not_mem hpre hno).trans hpart)
  | blank hb => exact .blank hb
  | comment hin hend =>
    subst hrest
    apply Fits.comment hin
    cases rest with
    | nil =>
      rcases hcomment with hno | hne | rfl
      · exact absurd rfl (hno _)
      · exact absurd rfl hne
      · simp
    | cons d rest => simpa using hend
  | stray hb hno => exact .stray hb hno
  | unclosed => exact absurd rfl (hs _)

/-- Two texts joined by a newline are cut as each by itself, with the newline a blank. -/
theorem segments_join {first : List Char} (h : ∀ text, .unclosed text ∉ segments first)
    (second : List Char) :
    segments (first ++ '\n' :: second) = segments first ++ .blank '\n' :: segments second := by
  symm
  apply cut_iff.mp
  have hcut := cut_segments first
  generalize segments first = pieces at h hcut
  induction hcut with
  | done => exact .piece (s := .blank '\n') (.blank (by simp)) (cut_segments second)
  | @piece s rest more hfit _ ih =>
    rw [List.append_assoc]
    have hs : ∀ text, s ≠ .unclosed text := by
      rintro text rfl
      exact h text List.mem_cons_self
    rw [← List.append_nil rest] at hfit
    apply Cut.piece (hfit.before_blank hs rfl (.inr (.inr rfl)) second)
    apply ih
    intro text hmem
    exact h text (List.mem_cons_of_mem _ hmem)

private theorem placed_append (line : Nat) (pieces more : List Segment) :
    placed line (pieces ++ more) =
      placed line pieces ++ placed (line + newlines (pieces.flatMap Segment.text)) more := by
  induction pieces generalizing line with
  | nil => rfl
  | cons s rest ih =>
    rw [List.cons_append, placed, ih, placed, List.flatMap_cons, newlines_append, Nat.add_assoc]
    rfl

private theorem placed_add (line k : Nat) (pieces : List Segment) :
    placed (line + k) pieces = (placed line pieces).map fun piece => (piece.1, piece.2 + k) := by
  induction pieces generalizing line with
  | nil => rfl
  | cons s rest ih =>
    rw [placed, placed, List.map_cons, Nat.add_right_comm, ih]

private theorem map_fst_placed (line : Nat) (pieces : List Segment) :
    (placed line pieces).map Prod.fst = pieces := by
  induction pieces generalizing line with
  | nil => rfl
  | cons s rest ih => rw [placed, List.map_cons, ih]

/-- A segment ends on the line that the text up to its end has reached. -/
theorem exists_of_mem_placed {line last : Nat} {s : Segment} {pieces : List Segment}
    (h : (s, last) ∈ placed line pieces) : ∃ before after, pieces = before ++ s :: after ∧
      last = line + newlines (before.flatMap Segment.text ++ s.text) := by
  induction pieces generalizing line with
  | nil => cases h
  | cons first rest ih =>
    rcases List.mem_cons.mp h with hfirst | hrest
    · cases hfirst
      exact ⟨[], rest, rfl, rfl⟩
    · obtain ⟨before, after, rfl, rfl⟩ := ih hrest
      refine ⟨first :: before, after, rfl, ?_⟩
      rw [List.flatMap_cons, List.append_assoc, newlines_append first.text, Nat.add_assoc]

/-- The tokens of a text without the end of input. -/
def lexed (line : Nat) (text : List Char) : List Token :=
  (placed line (segments text)).filterMap Segment.token?

/-- The lexical errors of a text. -/
def faults (line : Nat) (text : List Char) : List LexicalError :=
  (placed line (segments text)).filterMap Segment.error?

theorem scanFrom_eq (line : Nat) (text : List Char) :
    scanFrom line text =
      ⟨lexed line text ++ [.endOfInput (line + newlines text)], faults line text⟩ := rfl

theorem lexed_nil (line : Nat) : lexed line [] = [] := by rw [lexed, segments_nil, placed]; rfl

theorem faults_nil (line : Nat) : faults line [] = [] := by rw [faults, segments_nil, placed]; rfl

/-- Segments of a text end on its lines. -/
private theorem line_of_mem_placed {line last : Nat} {text : List Char} {s : Segment}
    (h : (s, last) ∈ placed line (segments text)) :
    line ≤ last ∧ last ≤ line + newlines text := by
  obtain ⟨before, after, hpieces, rfl⟩ := exists_of_mem_placed h
  have htext : text = before.flatMap Segment.text ++ s.text ++ after.flatMap Segment.text := by
    rw [← flatMap_text_segments text, hpieces, List.flatMap_append, List.flatMap_cons,
      List.append_assoc]
  rw [htext, newlines_append _ (after.flatMap Segment.text)]
  omega

/-- A token is a lexeme of the text, with its value and the line that it ends on. -/
theorem exists_of_mem_lexed {line : Nat} {text : List Char} {t : Token} (h : t ∈ lexed line text) :
    ∃ kind chars value last, (.lexeme kind chars, last) ∈ placed line (segments text) ∧
      Lexeme kind chars ∧ literal? kind chars = some value ∧
      t = ⟨kind, String.ofList chars, value, last⟩ := by
  obtain ⟨⟨s, last⟩, hmem, htoken⟩ := List.mem_filterMap.mp h
  cases s with
  | lexeme kind chars =>
    obtain ⟨value, hvalue, rfl⟩ := Option.map_eq_some_iff.mp htoken
    have hs : .lexeme kind chars ∈ segments text := by
      have hfst := List.mem_map_of_mem (f := Prod.fst) hmem
      rwa [map_fst_placed] at hfst
    exact ⟨kind, chars, value, last, hmem, lexeme_of_mem_segments hs, hvalue, rfl⟩
  | blank | comment | stray | unclosed => cases htoken

theorem kind_ne_end_of_mem_lexed {line : Nat} {text : List Char} {t : Token}
    (h : t ∈ lexed line text) : t.kind ≠ .endOfInput := by
  obtain ⟨kind, chars, value, last, -, hlexeme, -, rfl⟩ := exists_of_mem_lexed h
  exact hlexeme.kind_ne_end

/-- Tokens are on lines of their text. -/
theorem line_of_mem_lexed {line : Nat} {text : List Char} {t : Token} (h : t ∈ lexed line text) :
    line ≤ t.line ∧ t.line ≤ line + newlines text := by
  obtain ⟨kind, chars, value, last, hmem, -, -, rfl⟩ := exists_of_mem_lexed h
  exact line_of_mem_placed hmem

/-- An unclosed string is reported. -/
theorem unclosed_not_mem_segments {line : Nat} {source : List Char}
    (h : ∀ e ∈ faults line source, e.fault ≠ .unterminatedString) (text : List Char) :
    .unclosed text ∉ segments source := by
  intro hmem
  rw [← map_fst_placed line (segments source)] at hmem
  obtain ⟨⟨s, last⟩, hplaced, rfl⟩ := List.mem_map.mp hmem
  exact h ⟨.unterminatedString, last⟩ (List.mem_filterMap.mpr ⟨_, hplaced, rfl⟩) rfl

section Join
variable {first : List Char}

private theorem placed_join (h : ∀ text, .unclosed text ∉ segments first) (line : Nat)
    (second : List Char) :
    placed line (segments (first ++ '\n' :: second)) =
      placed line (segments first) ++ (.blank '\n', line + newlines first + 1) ::
        placed (line + newlines first + 1) (segments second) := by
  rw [segments_join h, placed_append, flatMap_text_segments]
  rfl

theorem lexed_join (h : ∀ text, .unclosed text ∉ segments first) (line : Nat)
    (second : List Char) :
    lexed line (first ++ '\n' :: second) =
      lexed line first ++ lexed (line + newlines first + 1) second := by
  rw [lexed, placed_join h, List.filterMap_append]
  rfl

theorem faults_join (h : ∀ text, .unclosed text ∉ segments first) (line : Nat)
    (second : List Char) :
    faults line (first ++ '\n' :: second) =
      faults line first ++ faults (line + newlines first + 1) second := by
  rw [faults, placed_join h, List.filterMap_append]
  rfl

end Join

section Later
variable (k line : Nat)

private theorem token?_later (piece : Segment × Nat) :
    Segment.token? (piece.1, piece.2 + k) = (Segment.token? piece).map (Token.later k) := by
  obtain ⟨s, last⟩ := piece
  cases s with
  | lexeme kind text => simp [Segment.token?, Token.later, Function.comp_def]
  | blank | comment | stray | unclosed => rfl

private theorem error?_later (piece : Segment × Nat) :
    Segment.error? (piece.1, piece.2 + k) = (Segment.error? piece).map (LexicalError.later k) := by
  obtain ⟨s, last⟩ := piece
  cases s with
  | lexeme kind text =>
    by_cases hv : literal? kind text = none <;> simp [Segment.error?, LexicalError.later, hv]
  | blank | comment | stray | unclosed => rfl

/-- The first line only adds to the lines of the tokens. -/
theorem lexed_add (text : List Char) :
    lexed (line + k) text = (lexed line text).map (Token.later k) := by
  rw [lexed, placed_add, List.filterMap_map, lexed, List.map_filterMap]
  exact congrArg (List.filterMap · _) (funext (token?_later k))

theorem faults_add (text : List Char) :
    faults (line + k) text = (faults line text).map (LexicalError.later k) := by
  rw [faults, placed_add, List.filterMap_map, faults, List.map_filterMap]
  exact congrArg (List.filterMap · _) (funext (error?_later k))

end Later

/-- Scanning is compositional over lines. If the first source leaves no string open, then what
follows it behind a newline adds its own tokens and errors, moved down by the lines of the first
source, of whose tokens only the end of input is lost. -/
theorem scan_joined (first second : String)
    (h : ∀ e ∈ (scan first).errors, e.fault ≠ .unterminatedString) :
    let lines := 1 + first.toList.count '\n'
    ∃ tokens, (scan first).tokens = tokens ++ [.endOfInput lines] ∧
      (∀ t ∈ tokens, t.kind ≠ .endOfInput) ∧
      scan (first ++ "\n" ++ second) =
        ⟨tokens ++ (scan second).tokens.map (Token.later lines),
          (scan first).errors ++ (scan second).errors.map (LexicalError.later lines)⟩ := by
  intro lines
  have hopen := unclosed_not_mem_segments h
  have htext : (first ++ "\n" ++ second).toList = first.toList ++ '\n' :: second.toList := by simp
  have hstart : 1 + newlines first.toList + 1 = 1 + lines := Nat.add_comm _ _
  refine ⟨lexed 1 first.toList, rfl, fun t => kind_ne_end_of_mem_lexed, ?_⟩
  rw [scan, htext, scanFrom_eq, lexed_join hopen, faults_join hopen, hstart, lexed_add, faults_add]
  have hend : 1 + newlines (first.toList ++ '\n' :: second.toList) =
      1 + newlines second.toList + lines := by
    have hnewline : newlines ('\n' :: second.toList) = newlines second.toList + 1 :=
      List.count_cons_self
    rw [newlines_append, hnewline, newlines]
    omega
  rw [hend, List.append_assoc, scan, scanFrom_eq, List.map_append]
  rfl

/-- The first source ends in a comment with a quote in it, and both have stray characters. -/
theorem scan_joined_comment :
    (∀ e ∈ (scan "a $\n// \"").errors, e.fault ≠ .unterminatedString) ∧
      scan ("a $\n// \"" ++ "\n" ++ "@ \"b\n\"") =
        ⟨[⟨.identifier, "a", .nil, 1⟩, ⟨.string, "\"b\n\"", .string "b\n", 4⟩, .endOfInput 4],
          [⟨.unexpectedCharacter, 1⟩, ⟨.unexpectedCharacter, 3⟩]⟩ := by
  have hopen : ∀ e ∈ (scan "a $\n// \"").errors, e.fault ≠ .unterminatedString := by
    decide +kernel
  refine ⟨hopen, ?_⟩
  obtain ⟨tokens, hfirst, -, hboth⟩ := scan_joined "a $\n// \"" "@ \"b\n\"" hopen
  have hscan : scan "a $\n// \"" = ⟨[⟨.identifier, "a", .nil, 1⟩] ++ [.endOfInput 2],
      [⟨.unexpectedCharacter, 1⟩]⟩ := by
    decide +kernel
  have hsecond : scan "@ \"b\n\"" =
      ⟨[⟨.string, "\"b\n\"", .string "b\n", 2⟩, .endOfInput 2], [⟨.unexpectedCharacter, 1⟩]⟩ := by
    decide +kernel
  have htokens : tokens = [⟨.identifier, "a", .nil, 1⟩] := by
    rw [hscan] at hfirst
    exact (List.append_inj_left' hfirst rfl).symm
  rw [hboth, htokens, hscan, hsecond]
  rfl

end Source
end BlockScript
