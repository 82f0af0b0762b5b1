import BlockScript.Proofs.Source.Joining

/-!
Layout between lexemes. Blanks and closed comments next to a lexeme, if a blank comes first, add
only segments that give no token and no error, and leave every other segment as it was.
-/
namespace BlockScript

/-- A token as if it stood on line zero. -/
def Token.unplaced (t : Token) : Token := { t with line := 0 }

def LexicalError.unplaced (e : LexicalError) : LexicalError := { e with line := 0 }

namespace Source

/-- Blanks, and comments each closed by a newline. -/
inductive Layout : List Char → Prop where
  | nil : Layout []
  | blank {c : Char} {rest : List Char} :
      c = ' ' ∨ c = '\t' ∨ c = '\x0d' ∨ c = '\n' → Layout rest → Layout (c :: rest)
  | comment {inside rest : List Char} :
      '\n' ∉ inside → Layout rest → Layout ('/' :: '/' :: inside ++ '\n' :: rest)

/-- Layout in the sense of segments. -/
def Segment.IsLayout : Segment → Prop
  | blank _ | comment _ => True
  | _ => False

/-- Layout is cut into segments of its own, whatever follows it. -/
theorem Layout.cut {gap : List Char} (h : Layout gap) : ∃ filling : List Segment,
    (∀ s ∈ filling, s.IsLayout) ∧
      ∀ {rest : List Char} {pieces : List Segment}, Cut rest pieces →
        Cut (gap ++ rest) (filling ++ pieces) := by
  induction h with
  | nil => exact ⟨[], by simp, id⟩
  | @blank c rest hc _ ih =>
    obtain ⟨filling, hfilling, hcut⟩ := ih
    refine ⟨.blank c :: filling, List.forall_mem_cons.mpr ⟨trivial, hfilling⟩, fun hrest => ?_⟩
    exact .piece (.blank hc) (hcut hrest)
  | @comment inside rest hinside _ ih =>
    obtain ⟨filling, hfilling, hcut⟩ := ih
    refine ⟨.comment ('/' :: '/' :: inside) :: .blank '\n' :: filling,
      List.forall_mem_cons.mpr ⟨trivial, List.forall_mem_cons.mpr ⟨trivial, hfilling⟩⟩,
      fun {after pieces} hrest => ?_⟩
    have hblank : Cut ('\n' :: (rest ++ after)) (.blank '\n' :: (filling ++ pieces)) :=
      .piece (s := .blank '\n') (.blank (by simp)) (hcut hrest)
    have hcomment := Cut.piece (.comment hinside (by simp)) hblank
    rwa [List.append_assoc]

section Insertion
variable {source lexeme : List Char} {pieces more : List Segment} {kind : TokenKind}

theorem Cut.source_eq (h : Cut source pieces) : source = pieces.flatMap Segment.text := by
  induction h with
  | done => rfl
  | piece _ _ ih => rw [List.flatMap_cons, ← ih]

/-- Each segment fits before the text of those that follow it. -/
theorem Cut.fits {s : Segment} (h : Cut source (pieces ++ s :: more)) :
    Fits s (more.flatMap Segment.text) := by
  induction pieces generalizing source with
  | nil =>
    cases h with
    | piece hfit hrest => rwa [← hrest.source_eq]
  | cons first rest ih =>
    cases h with
    | piece _ hrest => exact ih hrest

theorem Cut.rest (h : Cut source (pieces ++ more)) : Cut (more.flatMap Segment.text) more := by
  induction pieces generalizing source with
  | nil =>
    rw [List.nil_append] at h
    rwa [← h.source_eq]
  | cons first rest ih =>
    cases h with
    | piece _ hrest => exact ih hrest

private theorem flatMap_text_ne_nil (h : Cut source (pieces ++ more)) (hne : pieces ≠ []) :
    pieces.flatMap Segment.text ≠ [] := by
  obtain ⟨s, rest, rfl⟩ := List.exists_cons_of_ne_nil hne
  cases h with
  | piece hfit _ =>
    rw [List.flatMap_cons]
    exact List.append_ne_nil_of_left_ne_nil hfit.text_ne_nil _

/-- No string runs into the end before another segment. -/
private theorem Cut.unclosed_not_mem (h : Cut source (pieces ++ more))
    (hne : more.flatMap Segment.text ≠ []) (text : List Char) : .unclosed text ∉ pieces := by
  intro hmem
  obtain ⟨before, after, rfl⟩ := List.append_of_mem hmem
  rw [List.append_assoc, List.cons_append] at h
  have hfit := h.fits
  rw [List.flatMap_append] at hfit
  generalize hrest : after.flatMap Segment.text ++ more.flatMap Segment.text = rest at hfit
  cases hfit
  exact hne (List.append_eq_nil_iff.mp hrest).2

/-- A comment ends before its newline, which is no lexeme. -/
private theorem Cut.comment_not_before_lexeme
    (h : Cut source (pieces ++ .lexeme kind lexeme :: more))
    (text : List Char) : pieces.getLast? ≠ some (.comment text) := by
  intro hlast
  obtain ⟨before, rfl⟩ := List.getLast?_eq_some_iff.mp hlast
  have hlexeme := h.fits
  rw [List.append_assoc] at h
  have hcomment := h.fits
  cases hlexeme with
  | lexeme hl =>
    obtain ⟨c, tail, rfl, hb⟩ := hl.head
    cases hcomment with
    | comment _ hend =>
      rw [hend c rfl] at hb
      exact absurd hb (by decide)

/-- A gap that starts with a blank changes none of the segments around it, if it is not put right
behind a comment or into an unclosed string. -/
theorem Cut.insert {c : Char} {gap : List Char} {filling : List Segment}
    (h : Cut source (pieces ++ more)) (hunclosed : ∀ text, .unclosed text ∉ pieces)
    (hcomment : ∀ text, pieces.getLast? ≠ some (.comment text)) (hc : isBlank c = true)
    (hgap : Cut (c :: gap ++ more.flatMap Segment.text) (filling ++ more)) :
    Cut (pieces.flatMap Segment.text ++ (c :: gap ++ more.flatMap Segment.text))
      (pieces ++ (filling ++ more)) := by
  induction pieces generalizing source with
  | nil => exact hgap
  | cons s rest ih =>
    rw [List.cons_append] at h
    cases h with
    | @piece _ source _ hfit hrest =>
      rw [List.flatMap_cons, List.append_assoc]
      have hs : ∀ text, s ≠ .unclosed text := by
        rintro text rfl
        exact hunclosed text List.mem_cons_self
      have hroom : (∀ text, s ≠ .comment text) ∨ rest.flatMap Segment.text ≠ [] ∨ c = '\n' := by
        by_cases hne : rest = []
        · subst hne
          exact .inl fun text he => hcomment text (congrArg some he)
        · exact .inr (.inl (flatMap_text_ne_nil hrest hne))
      rw [hrest.source_eq, List.flatMap_append] at hfit
      apply Cut.piece (hfit.before_blank hs hc hroom _)
      apply ih hrest
      · exact fun text hmem => hunclosed text (List.mem_cons_of_mem _ hmem)
      · intro text hlast
        apply hcomment text
        rw [List.getLast?_cons, hlast]
        rfl

/-- Layout next to a lexeme. -/
theorem segments_insert {gap : List Char}
    (h : Cut source (pieces ++ .lexeme kind lexeme :: more)) (hgap : Layout gap)
    (hstart : ∃ c ∈ gap.head?, isBlank c = true) : ∃ filling : List Segment,
    (∀ s ∈ filling, s.IsLayout) ∧
      segments (pieces.flatMap Segment.text ++ gap ++ lexeme ++ more.flatMap Segment.text) =
        pieces ++ filling ++ .lexeme kind lexeme :: more ∧
      segments (pieces.flatMap Segment.text ++ lexeme ++ gap ++ more.flatMap Segment.text) =
        pieces ++ .lexeme kind lexeme :: filling ++ more := by
  obtain ⟨filling, hfilling, hcut⟩ := hgap.cut
  obtain ⟨c, hhead, hc⟩ := hstart
  obtain ⟨rest, rfl⟩ := List.head?_eq_some_iff.mp hhead
  have hlexeme : lexeme ≠ [] := by
    cases h.fits with
    | lexeme hl =>
      obtain ⟨d, tail, rfl, -⟩ := hl.head
      exact List.cons_ne_nil d tail
  have hunclosed := h.unclosed_not_mem fun he => hlexeme (List.append_eq_nil_iff.mp he).1
  have hrest : Cut (lexeme ++ more.flatMap Segment.text) (.lexeme kind lexeme :: more) := h.rest
  refine ⟨filling, hfilling, ?_, ?_⟩
  · have hbefore := h.insert hunclosed h.comment_not_before_lexeme hc (hcut hrest)
    simpa [Segment.text] using (cut_iff.mp hbefore).symm
  · rw [List.append_cons] at h
    have hclosed : ∀ text, .unclosed text ∉ pieces ++ [.lexeme kind lexeme] := by
      intro text hmem
      rcases List.mem_append.mp hmem with hmem | hmem
      · exact hunclosed text hmem
      · cases List.mem_singleton.mp hmem
    have hafter := h.insert hclosed (by simp) hc (hcut h.rest)
    simpa [Segment.text] using (cut_iff.mp hafter).symm

end Insertion

/-- Two sources with the same tokens and the same errors, but perhaps on other lines. -/
structure SameButLines (source other : String) : Prop where
  tokens : (scan source).tokens.map Token.unplaced = (scan other).tokens.map Token.unplaced
  errors : (scan source).errors.map LexicalError.unplaced =
    (scan other).errors.map LexicalError.unplaced

theorem map_unplaced_token? (piece : Segment × Nat) :
    (Segment.token? piece).map Token.unplaced = Segment.token? (piece.1, 0) := by
  obtain ⟨s, line⟩ := piece
  cases s with
  | lexeme kind text => simp [Segment.token?, Token.unplaced, Function.comp_def]
  | blank | comment | stray | unclosed => rfl

theorem map_unplaced_error? (piece : Segment × Nat) :
    (Segment.error? piece).map LexicalError.unplaced = Segment.error? (piece.1, 0) := by
  obtain ⟨s, line⟩ := piece
  cases s with
  | lexeme kind text =>
    by_cases hv : literal? kind text = none <;> simp [Segment.error?, LexicalError.unplaced, hv]
  | blank | comment | stray | unclosed => rfl

/-- What is read off placed segments, but for their lines, is read off the segments. -/
theorem map_filterMap_placed {α : Type} {read : Segment × Nat → Option α} {unplace : α → α}
    (h : ∀ piece, (read piece).map unplace = read (piece.1, 0)) (line : Nat)
    (pieces : List Segment) :
    ((placed line pieces).filterMap read).map unplace = pieces.filterMap fun s => read (s, 0) := by
  induction pieces generalizing line with
  | nil => rfl
  | cons s rest ih =>
    have hs := h (s, line + newlines s.text)
    rw [placed, List.filterMap_cons, List.filterMap_cons, ← hs, ← ih (line + newlines s.text)]
    cases read (s, line + newlines s.text) <;> rfl

private theorem Segment.IsLayout.silent {s : Segment} (h : s.IsLayout) (line : Nat) :
    Segment.token? (s, line) = none ∧ Segment.error? (s, line) = none := by
  cases s with
  | blank | comment => exact ⟨rfl, rfl⟩
  | lexeme | stray | unclosed => exact h.elim

/-- Layout adds no token and no error. -/
theorem sameButLines_of_layout {source changed : String} {pieces filling more : List Segment}
    (hfilling : ∀ s ∈ filling, s.IsLayout) (h : segments source.toList = pieces ++ more)
    (h' : segments changed.toList = pieces ++ filling ++ more) : SameButLines changed source := by
  have htokens : filling.filterMap (fun s => Segment.token? (s, 0)) = [] :=
    List.filterMap_eq_nil_iff.mpr fun s hs => ((hfilling s hs).silent 0).1
  have herrors : filling.filterMap (fun s => Segment.error? (s, 0)) = [] :=
    List.filterMap_eq_nil_iff.mpr fun s hs => ((hfilling s hs).silent 0).2
  constructor
  · simp only [scan, scanFrom_eq, lexed, List.map_append, map_filterMap_placed map_unplaced_token?,
      h, h', List.filterMap_append, htokens, List.append_nil]
    rfl
  · simp only [scan, scanFrom_eq, faults, map_filterMap_placed map_unplaced_error?, h, h',
      List.filterMap_append, herrors, List.append_nil]

end Source
end BlockScript
