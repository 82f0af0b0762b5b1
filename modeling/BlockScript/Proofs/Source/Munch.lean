import BlockScript.Proofs.Source.Lexemes

/-!
Scanning loses nothing and takes the longest lexeme at each step. The rules for a segment and what
follows it leave one way to cut a source, and the scanner cuts it that way.
-/
namespace BlockScript.Source

/-- A segment may stand before the rest of a source. Two slashes belong to no lexeme, and a slash
alone is one, so no stray character could begin a comment. -/
inductive Fits : Segment → List Char → Prop where
  | lexeme {kind : TokenKind} {text rest : List Char} :
      Lexeme kind text →
      (∀ other longer, Lexeme other longer → longer <+: text ++ rest →
        longer.length ≤ text.length) →
      ¬ ['/', '/'] <+: text ++ rest → Fits (.lexeme kind text) rest
  | blank {c : Char} {rest : List Char} :
      c = ' ' ∨ c = '\t' ∨ c = '\x0d' ∨ c = '\n' → Fits (.blank c) rest
  | comment {inside rest : List Char} :
      '\n' ∉ inside → (∀ c ∈ rest.head?, c = '\n') → Fits (.comment ('/' :: '/' :: inside)) rest
  | stray {c : Char} {rest : List Char} :
      ¬ (c = ' ' ∨ c = '\t' ∨ c = '\x0d' ∨ c = '\n') →
      (∀ kind text, ¬ Lexeme kind (c :: text)) → Fits (.stray c) rest
  | unclosed {inside : List Char} : '"' ∉ inside → Fits (.unclosed ('"' :: inside)) []

/-- The ways to cut a source into segments. -/
inductive Cut : List Char → List Segment → Prop where
  | done : Cut [] []
  | piece {s : Segment} {rest : List Char} {more : List Segment} :
      Fits s rest → Cut rest more → Cut (s.text ++ rest) (s :: more)

/-- A prefix inside a class is within the run of the class. -/
theorem length_le_takeWhile {p : Char → Bool} {run source : List Char} (h : run <+: source)
    (hp : ∀ c ∈ run, p c = true) : run.length ≤ (source.takeWhile p).length := by
  obtain ⟨rest, rfl⟩ := h
  rw [List.takeWhile_append_of_pos hp, List.length_append]
  exact Nat.le_add_right _ _

theorem mem_takeWhile {p : Char → Bool} {source : List Char} :
    ∀ c ∈ source.takeWhile p, p c = true :=
  List.all_eq_true.mp List.all_takeWhile

theorem mem_head?_dropWhile {p : Char → Bool} {source : List Char} :
    ∀ c ∈ (source.dropWhile p).head?, p c = false := by
  intro c hc
  have hnot := List.head?_dropWhile_not p source
  rwa [Option.mem_def.mp hc] at hnot

section Soundness
variable {first : Char} {source text rest : List Char} {kind : TokenKind}

/-- Lexemes at the same place start with the same character, so only their tails compete. -/
private theorem fits_lexeme (htext : text ++ rest = first :: source) (h : Lexeme kind text)
    (hslash : ¬ (first = '/' ∧ source.head? = some '/'))
    (hmax : ∀ other tail, Lexeme other (first :: tail) → tail <+: source →
      tail.length < text.length) : Fits (.lexeme kind text) rest := by
  apply Fits.lexeme h
  · intro other longer hother hpre
    obtain ⟨c, tail, rfl, -⟩ := hother.head
    rw [htext, List.cons_prefix_cons] at hpre
    obtain ⟨rfl, hpre⟩ := hpre
    exact hmax other tail hother hpre
  · intro hpre
    rw [htext, List.cons_prefix_cons] at hpre
    obtain ⟨rfl, more, rfl⟩ := hpre
    exact hslash ⟨rfl, rfl⟩

private theorem fits_quoted : Fits (Segment.quoted source).1 (Segment.quoted source).2 := by
  have hsplit : source.takeWhile (· ≠ '"') ++ source.dropWhile (· ≠ '"') = source :=
    List.takeWhile_append_dropWhile
  have hin : '"' ∉ source.takeWhile (· ≠ '"') := fun h => by simpa using mem_takeWhile _ h
  unfold Segment.quoted
  split
  · exact .unclosed hin
  · rename_i quote after hafter
    have hquote : decide (quote ≠ '"') = false :=
      mem_head?_dropWhile quote (Option.mem_def.mpr (congrArg List.head? hafter))
    obtain rfl : quote = '"' := by simpa using hquote
    rw [hafter] at hsplit
    have htext : '"' :: source.takeWhile (· ≠ '"') ++ ['"'] ++ after = '"' :: source := by
      rw [List.append_assoc, List.singleton_append, List.cons_append, hsplit]
    apply fits_lexeme htext (.string hin) (by simp)
    intro other tail hother hpre
    obtain ⟨-, inside, rfl, hno⟩ := hother.of_quote
    have hrun : inside <+: source := (List.prefix_append _ _).trans hpre
    have hne : ∀ c ∈ inside, decide (c ≠ '"') = true := by
      rintro c hc
      exact decide_eq_true fun he => hno (he ▸ hc)
    have hle := length_le_takeWhile hrun hne
    simp only [List.length_append, List.length_cons, List.length_nil]
    omega

/-- Where a source could be read as a number with a point, the point follows its first digits. -/
private theorem dropWhile_of_fraction {whole part : List Char} {digit : Char}
    (hw : ∀ d ∈ whole, d.isDigit = true) (hpre : whole ++ '.' :: digit :: part <+: source) :
    source.takeWhile Char.isDigit = whole ∧
      ∃ more, source.dropWhile Char.isDigit = '.' :: digit :: (part ++ more) := by
  obtain ⟨more, rfl⟩ := hpre
  have hpoint : ∀ c ∈ ('.' :: digit :: (part ++ more)).head?, c.isDigit = false := by
    simp [Char.isDigit]
  obtain ⟨htake, hdrop⟩ := span_append hw hpoint
  rw [List.append_assoc]
  exact ⟨htake, more, hdrop⟩

private theorem fits_numeral (hf : first.isDigit = true) :
    Fits (Segment.numeral first source).1 (Segment.numeral first source).2 := by
  have hsplit : source.takeWhile Char.isDigit ++ source.dropWhile Char.isDigit = source :=
    List.takeWhile_append_dropWhile
  have hslash : ¬ (first = '/' ∧ source.head? = some '/') := by
    rintro ⟨rfl, -⟩
    exact absurd hf (by decide)
  have hwhole : ∀ c ∈ first :: source.takeWhile Char.isDigit, c.isDigit = true :=
    List.forall_mem_cons.mpr ⟨hf, mem_takeWhile⟩
  -- a lexeme without a point is never longer than the first digits
  have hdigits : ∀ tail, (∀ d ∈ tail, d.isDigit = true) → tail <+: source →
      tail.length < (first :: source.takeWhile Char.isDigit).length := by
    intro tail hd hpre
    exact Nat.lt_succ_of_le (length_le_takeWhile hpre hd)
  unfold Segment.numeral
  split
  · rename_i digit after hafter
    rw [hafter] at hsplit
    split
    · rename_i hdigit
      have hfraction : ∀ c ∈ digit :: after.takeWhile Char.isDigit, c.isDigit = true :=
        List.forall_mem_cons.mpr ⟨hdigit, mem_takeWhile⟩
      have htext : first :: source.takeWhile Char.isDigit ++
          '.' :: digit :: after.takeWhile Char.isDigit ++ after.dropWhile Char.isDigit =
          first :: source := by
        simpa using hsplit
      apply fits_lexeme htext (.fraction (by simp) hwhole (by simp) hfraction) hslash
      intro other tail hother hpre
      rcases (hother.of_isDigit hf).2 with hd | ⟨whole, digit', part, rfl, hw, hp⟩
      · have hlt := hdigits tail hd hpre
        simp only [List.length_append, List.length_cons] at hlt ⊢
        omega
      · obtain ⟨htake, more, hdrop⟩ := dropWhile_of_fraction hw hpre
        rw [hafter] at hdrop
        obtain ⟨rfl, rfl⟩ : digit = digit' ∧ after = part ++ more := by simpa using hdrop
        have hle : part.length ≤ ((part ++ more).takeWhile Char.isDigit).length :=
          length_le_takeWhile (List.prefix_append _ _) fun d hd => hp d (List.mem_cons_of_mem _ hd)
        simp only [htake, List.length_append, List.length_cons]
        omega
    · rename_i hdigit
      have htext : first :: source.takeWhile Char.isDigit ++ '.' :: digit :: after =
          first :: source := by simpa using hsplit
      apply fits_lexeme htext (.integer (by simp) hwhole) hslash
      intro other tail hother hpre
      rcases (hother.of_isDigit hf).2 with hd | ⟨whole, digit', part, rfl, hw, hp⟩
      · exact hdigits tail hd hpre
      · obtain ⟨-, more, hdrop⟩ := dropWhile_of_fraction hw hpre
        rw [hafter] at hdrop
        obtain ⟨rfl, -⟩ : digit = digit' ∧ after = part ++ more := by simpa using hdrop
        exact absurd (hp digit (by simp)) hdigit
  · rename_i after hafter
    have htext : first :: source.takeWhile Char.isDigit ++ source.dropWhile Char.isDigit =
        first :: source := by rw [List.cons_append, hsplit]
    apply fits_lexeme htext (.integer (by simp) hwhole) hslash
    intro other tail hother hpre
    rcases (hother.of_isDigit hf).2 with hd | ⟨whole, digit, part, rfl, hw, -⟩
    · exact hdigits tail hd hpre
    · obtain ⟨-, more, hdrop⟩ := dropWhile_of_fraction hw hpre
      exact absurd hdrop (hafter _ _)

private theorem fits_word (hf : isNameStart first = true) :
    Fits (Segment.word first source).1 (Segment.word first source).2 := by
  have htext : first :: source.takeWhile isNamePart ++ source.dropWhile isNamePart =
      first :: source := by
    rw [List.cons_append, List.takeWhile_append_dropWhile]
  have hslash : ¬ (first = '/' ∧ source.head? = some '/') := by
    rintro ⟨rfl, -⟩
    exact absurd hf (by decide)
  apply fits_lexeme htext (lexeme_wordKind hf mem_takeWhile) hslash
  intro other tail hother hpre
  exact Nat.lt_succ_of_le (length_le_takeWhile hpre (hother.of_isNameStart hf).2)

/-- A character of no other class is a symbol or the start of one, or begins nothing. -/
private theorem fits_symbol (hb : isBlank first = false) (hq : first ≠ '"')
    (hd : first.isDigit = false)
    (hn : isNameStart first = false) (hslash : ¬ (first = '/' ∧ source.head? = some '/')) :
    Fits (Segment.symbol first source).1 (Segment.symbol first source).2 := by
  have hshort : ∀ other tail, Lexeme other (first :: tail) → tail.length ≤ 1 ∧
      Symbol.ofSpelling? (first :: tail) ≠ none ∧ Symbol.ofSpelling? [first] ≠ none := by
    intro other tail hother
    obtain ⟨s, -, hs⟩ := hother.of_other hq hd hn
    obtain ⟨c, rest, hs', hlen, hsome, -⟩ := symbol_shape s
    obtain ⟨rfl, rfl⟩ := List.cons.inj (hs.symm.trans hs')
    refine ⟨hlen, ?_, by simpa [Option.isSome_iff_ne_none] using hsome⟩
    rw [← hs, Symbol.ofSpelling?_spelling]
    simp
  -- where the next character adds no symbol, the one character is all there is
  have hsingle : (∀ other second, Lexeme other [first, second] → source.head? ≠ some second) →
      Fits (Segment.single first) source := by
    intro hpair
    unfold Segment.single
    split
    · rename_i s hs
      have hl : Lexeme (.symbol s) [first] := Symbol.spelling_of_ofSpelling? hs ▸ .symbol s
      apply fits_lexeme rfl hl hslash
      intro other tail hother hpre
      match tail with
      | [] => simp
      | [second] =>
        obtain ⟨more, rfl⟩ := hpre
        exact absurd rfl (hpair other second hother)
      | second :: third :: more =>
        have hle := (hshort other _ hother).1
        simp at hle
    · rename_i hs
      have hno : ¬ (first = ' ' ∨ first = '\t' ∨ first = '\x0d' ∨ first = '\n') := by
        rw [← isBlank_iff, hb]
        exact Bool.false_ne_true
      exact .stray hno fun other tail hother => (hshort other tail hother).2.2 hs
  unfold Segment.symbol
  split
  · exact hsingle (by simp)
  · rename_i second rest
    split
    · rename_i s hs
      have hl : Lexeme (.symbol s) [first, second] := Symbol.spelling_of_ofSpelling? hs ▸ .symbol s
      apply fits_lexeme rfl hl hslash
      intro other tail hother _
      exact Nat.lt_succ_of_le (hshort other tail hother).1
    · rename_i hs
      apply hsingle
      intro other second' hother he
      obtain rfl : second = second' := by simpa using he
      exact (hshort other _ hother).2.1 hs

private theorem fits_next : Fits (Segment.next first source).1 (Segment.next first source).2 := by
  unfold Segment.next
  split
  · rename_i hb
    exact .blank (isBlank_iff.mp hb)
  split
  · rename_i hq
    exact fits_quoted
  split
  · rename_i hd
    exact fits_numeral hd
  split
  · rename_i hn
    exact fits_word hn
  split
  · rename_i hslash
    obtain ⟨rfl, hhead⟩ := hslash
    obtain ⟨more, rfl⟩ : ∃ more, source = '/' :: more := List.head?_eq_some_iff.mp hhead
    have hno : '\n' ∉ more.takeWhile (· ≠ '\n') := fun h => by simpa using mem_takeWhile _ h
    have hend : ∀ c ∈ (more.dropWhile (· ≠ '\n')).head?, c = '\n' := fun c hc => by
      simpa using mem_head?_dropWhile c hc
    exact .comment hno hend
  · rename_i hb hq hd hn hslash
    rw [Bool.not_eq_true] at hb hd hn
    exact fits_symbol hb hq hd hn hslash

end Soundness

/-- The characters of an unclosed string hold no string. -/
private theorem not_lexeme_of_unclosed {kind : TokenKind} {text rest inside : List Char}
    (h : Lexeme kind text) (ht : text ++ rest = '"' :: inside) : '"' ∈ inside := by
  obtain ⟨c, tail, rfl, -⟩ := h.head
  obtain ⟨rfl, rfl⟩ := List.cons.inj ht
  obtain ⟨-, closed, rfl, -⟩ := h.of_quote
  simp

/-- The rules leave no choice: a segment that fits is the one the scanner cuts. -/
private theorem next_eq_of_fits {s : Segment} {first : Char} {source rest : List Char}
    (h : Fits s rest)
    (ht : s.text ++ rest = first :: source) : Segment.next first source = (s, rest) := by
  cases h with
  | @lexeme kind text rest hl hmax hslash =>
    have hcut : Fits (Segment.next first source).1 (Segment.next first source).2 := fits_next
    have htext := Segment.next_text first source
    obtain ⟨c, tail, rfl, hb⟩ := hl.head
    obtain ⟨rfl, rfl⟩ := List.cons.inj ht
    generalize Segment.next c (tail ++ rest) = cut at hcut htext
    obtain ⟨s, after⟩ := cut
    have he : s.text ++ after = c :: tail ++ rest := htext
    cases hcut with
    | @lexeme kind' text' _ hl' hmax' _ =>
      have hle := hmax _ _ hl' (he ▸ List.prefix_append _ _)
      have hle' := hmax' _ _ hl (he ▸ List.prefix_append _ _)
      obtain ⟨rfl, rfl⟩ := List.append_inj he (Nat.le_antisymm hle hle')
      rw [hl.kind_unique hl']
    | blank hc =>
      obtain ⟨rfl, -⟩ := List.cons.inj he
      simp [isBlank_iff.mpr hc] at hb
    | @comment inside =>
      exact absurd ⟨inside ++ after, he⟩ hslash
    | stray _ hno =>
      obtain ⟨rfl, -⟩ := List.cons.inj he
      exact absurd hl (hno _ _)
    | @unclosed inside hin =>
      have he' : c :: tail ++ rest = '"' :: inside := he.symm.trans (List.append_nil _)
      exact absurd (not_lexeme_of_unclosed hl he') hin
  | blank hc =>
    obtain ⟨rfl, rfl⟩ := List.cons.inj ht
    simp [Segment.next, isBlank_iff.mpr hc]
  | @comment inside rest hno hend =>
    obtain ⟨rfl, rfl⟩ := List.cons.inj ht
    have hrun : ∀ c ∈ '/' :: inside, decide (c ≠ '\n') = true := by
      intro c hc
      apply decide_eq_true
      rintro rfl
      simp [hno] at hc
    have hstop : ∀ c ∈ rest.head?, decide (c ≠ '\n') = false := by
      intro c hc
      simpa using hend c hc
    obtain ⟨htake, hdrop⟩ := span_append hrun hstop
    have hslash : Segment.next '/' ('/' :: inside ++ rest) =
        (.comment ('/' :: ('/' :: inside ++ rest).takeWhile (· ≠ '\n')),
          ('/' :: inside ++ rest).dropWhile (· ≠ '\n')) := rfl
    exact hslash.trans (by rw [htake, hdrop])
  | @stray c rest hb hno =>
    obtain ⟨rfl, rfl⟩ := List.cons.inj ht
    rw [← isBlank_iff, Bool.not_eq_true] at hb
    have hq : c ≠ '"' := by
      rintro rfl
      exact hno _ _ (.string (List.not_mem_nil))
    have hd : c.isDigit = false := by
      rw [Bool.eq_false_iff]
      exact fun hd => hno _ [] (.integer (by simp) (by simpa using hd))
    have hn : isNameStart c = false := by
      rw [Bool.eq_false_iff]
      exact fun hn => hno _ [] (lexeme_wordKind hn (by simp))
    have hslash : c ≠ '/' := by
      rintro rfl
      exact hno _ [] (.symbol .slash)
    have hnone : ∀ text, Symbol.ofSpelling? (c :: text) = none := by
      intro text
      rw [Option.eq_none_iff_forall_ne_some]
      intro s hs
      have hl : Lexeme (.symbol s) (c :: text) := Symbol.spelling_of_ofSpelling? hs ▸ .symbol s
      exact hno _ text hl
    simp only [Segment.next, hb, hq, hd, hn, hslash, Bool.false_eq_true, false_and, if_false]
    cases rest with
    | nil => simp [Segment.symbol, Segment.single, hnone]
    | cons second more => simp [Segment.symbol, Segment.single, hnone]
  | @unclosed inside hin =>
    obtain ⟨rfl, rfl⟩ := List.cons.inj ht
    have hrun : ∀ c ∈ inside, decide (c ≠ '"') = true := by
      intro c hc
      apply decide_eq_true
      rintro rfl
      exact hin hc
    obtain ⟨htake, hdrop⟩ :=
      span_append hrun (by simp : ∀ c ∈ ([] : List Char).head?, decide (c ≠ '"') = false)
    have hquote : Segment.next '"' (inside ++ []) = Segment.quoted (inside ++ []) := rfl
    refine hquote.trans ?_
    rw [Segment.quoted, htake, hdrop]

theorem Fits.text_ne_nil {s : Segment} {rest : List Char} (h : Fits s rest) : s.text ≠ [] := by
  cases h with
  | lexeme hl =>
    obtain ⟨c, tail, rfl, -⟩ := hl.head
    simp [Segment.text]
  | blank | comment | stray | unclosed => simp [Segment.text]

theorem cut_segments (source : List Char) : Cut source (segments source) := by
  fun_induction segments source with
  | case1 => exact .done
  | case2 c cs ih =>
    have hfit : Fits (Segment.next c cs).1 (Segment.next c cs).2 := fits_next
    have hcut := Cut.piece hfit ih
    rwa [Segment.next_text] at hcut

/-- There is one way to cut a source. -/
theorem cut_iff {source : List Char} {pieces : List Segment} :
    Cut source pieces ↔ pieces = segments source := by
  constructor
  · intro h
    induction h with
    | done => exact segments_nil.symm
    | @piece s rest more hs _ ih =>
      obtain ⟨c, cs, ht⟩ := List.exists_cons_of_ne_nil hs.text_ne_nil
      have hsource : s.text ++ rest = c :: (cs ++ rest) := by rw [ht, List.cons_append]
      rw [hsource, segments_cons, next_eq_of_fits hs hsource, ih]
  · rintro rfl
    exact cut_segments source

theorem lexeme_of_mem_segments {source : List Char} {kind : TokenKind} {text : List Char}
    (h : .lexeme kind text ∈ segments source) : Lexeme kind text := by
  have hcut := cut_segments source
  generalize segments source = pieces at h hcut
  induction hcut with
  | done => cases h
  | piece hs _ ih =>
    rcases List.mem_cons.mp h with rfl | h
    · cases hs with
      | lexeme hl => exact hl
    · exact ih h

/-- What a segment gives a token of. -/
def Segment.lexeme? : Segment → Option (TokenKind × String)
  | lexeme kind text => some (kind, String.ofList text)
  | _ => none

/-- What is reported about a segment. -/
def Segment.complaint? : Segment → Option String
  | stray _ => some "Unexpected character."
  | unclosed _ => some "Unterminated string."
  | _ => none

section Placed
variable {pieces : List Segment}

/-- Lines are added to segments without a change to which of them there are. -/
theorem filterMap_token?_placed (line : Nat)
    (h : ∀ kind text, .lexeme kind text ∈ pieces → Lexeme kind text) :
    ((placed line pieces).filterMap Segment.token?).map (fun t => (t.kind, t.lexeme)) =
      pieces.filterMap Segment.lexeme? := by
  induction pieces generalizing line with
  | nil => rfl
  | cons s rest ih =>
    have hrest := ih (line + newlines s.text) fun kind text hmem =>
      h kind text (List.mem_cons_of_mem _ hmem)
    rw [placed, List.filterMap_cons, List.filterMap_cons]
    cases s with
    | lexeme kind text =>
      obtain ⟨v, hv⟩ := Option.ne_none_iff_exists'.mp (h kind text (by simp)).literal?_ne_none
      simp [Segment.token?, Segment.lexeme?, hv, hrest]
    | blank | comment | stray | unclosed => simpa [Segment.token?, Segment.lexeme?] using hrest

theorem filterMap_error?_placed (line : Nat)
    (h : ∀ kind text, .lexeme kind text ∈ pieces → Lexeme kind text) :
    ((placed line pieces).filterMap Segment.error?).map (fun e => e.fault.message) =
      pieces.filterMap Segment.complaint? := by
  induction pieces generalizing line with
  | nil => rfl
  | cons s rest ih =>
    have hrest := ih (line + newlines s.text) fun kind text hmem =>
      h kind text (List.mem_cons_of_mem _ hmem)
    rw [placed, List.filterMap_cons, List.filterMap_cons]
    cases s with
    | lexeme kind text =>
      have hv := (h kind text (by simp)).literal?_ne_none
      simpa [Segment.error?, Segment.complaint?, hv] using hrest
    | stray | unclosed => exact congrArg (_ :: ·) hrest
    | blank | comment => simpa [Segment.error?, Segment.complaint?] using hrest

end Placed

/-- A source is cut in the one way that the rules allow, with the longest lexeme at each place.
Its lexemes are the tokens, and what is no lexeme, blank or comment is reported, all in order. -/
theorem scan_longest_lexemes (source : String) :
    ∃ pieces, (∀ other, Cut source.toList other ↔ other = pieces) ∧
      pieces.flatMap Segment.text = source.toList ∧
      (scan source).tokens.map (fun t => (t.kind, t.lexeme)) =
        pieces.filterMap Segment.lexeme? ++ [(.endOfInput, "")] ∧
      (scan source).errors.map (fun e => e.fault.message) =
        pieces.filterMap Segment.complaint? := by
  refine ⟨segments source.toList, fun _ => cut_iff, flatMap_text_segments _, ?_, ?_⟩
  · rw [scan, scanFrom, List.map_append,
      filterMap_token?_placed _ fun _ _ => lexeme_of_mem_segments]
    rfl
  · exact filterMap_error?_placed _ fun _ _ => lexeme_of_mem_segments

end BlockScript.Source
