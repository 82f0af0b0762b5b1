import BlockScript.Proofs.Source.Layout
import Mathlib.Data.List.Basic

/-!
Tokens and text determine each other. A source gives only tokens whose kind, text and literal
agree, and the texts of such tokens with a space between each two give the same tokens again.
-/
namespace BlockScript.Source

/-- The characters that names start with. -/
def IsLetter (c : Char) : Prop := ('a' ≤ c ∧ c ≤ 'z') ∨ ('A' ≤ c ∧ c ≤ 'Z') ∨ c = '_'

def IsDigit (c : Char) : Prop := '0' ≤ c ∧ c ≤ '9'

instance : DecidablePred IsLetter := fun c =>
  inferInstanceAs (Decidable (('a' ≤ c ∧ c ≤ 'z') ∨ ('A' ≤ c ∧ c ≤ 'Z') ∨ c = '_'))

instance : DecidablePred IsDigit := fun c => inferInstanceAs (Decidable ('0' ≤ c ∧ c ≤ '9'))

/-- The spellings of numbers. -/
inductive Decimal : List Char → Prop where
  | integer {digits : List Char} : digits ≠ [] → (∀ c ∈ digits, IsDigit c) → Decimal digits
  | fraction {whole part : List Char} :
      whole ≠ [] → (∀ c ∈ whole, IsDigit c) → part ≠ [] → (∀ c ∈ part, IsDigit c) →
      Decimal (whole ++ '.' :: part)

/-- The texts of each kind of token, with the values that they stand for. -/
inductive Spelled : TokenKind → String → Value → Prop where
  | symbol (s : Symbol) : Spelled (.symbol s) (String.ofList s.spelling) .nil
  | keyword (k : Keyword) : Spelled (.keyword k) k.spelling .nil
  | identifier {first : Char} {rest : List Char} :
      IsLetter first → (∀ c ∈ rest, IsLetter c ∨ IsDigit c) →
      (∀ k : Keyword, k.spelling ≠ String.ofList (first :: rest)) →
      Spelled .identifier (String.ofList (first :: rest)) .nil
  | number {text : List Char} {x : Float} :
      Decimal text → Number.ofChars? text = some x →
      Spelled .number (String.ofList text) (.number x)
  | string {inside : String} :
      '"' ∉ inside.toList → Spelled .string ("\"" ++ inside ++ "\"") (.string inside)

section Classes
variable {c : Char}

theorem isDigit_iff : c.isDigit = true ↔ IsDigit c := Char.isDigit_iff_toNat

private theorem isNameStart_iff : isNameStart c = true ↔ IsLetter c := by
  change ((decide (65 ≤ c.val ∧ c.val ≤ 90) || (decide (97 ≤ c.val) && decide (c.val ≤ 122))) ||
    decide (c = '_')) = true ↔
      (97 ≤ c.val ∧ c.val ≤ 122) ∨ (65 ≤ c.val ∧ c.val ≤ 90) ∨ c = '_'
  simp only [Bool.or_eq_true, Bool.and_eq_true, decide_eq_true_eq]
  rw [← or_assoc, or_comm (a := 97 ≤ c.val ∧ c.val ≤ 122)]

private theorem isNamePart_iff : isNamePart c = true ↔ IsLetter c ∨ IsDigit c := by
  rw [isNamePart, Bool.or_eq_true, isNameStart_iff, isDigit_iff]

end Classes

theorem decimal_iff {text : List Char} : Decimal text ↔ Lexeme .number text := by
  constructor
  · rintro (⟨hne, hd⟩ | ⟨hne, hd, hpne, hp⟩)
    · exact .integer hne fun c hc => isDigit_iff.mpr (hd c hc)
    · exact .fraction hne (fun c hc => isDigit_iff.mpr (hd c hc)) hpne
        fun c hc => isDigit_iff.mpr (hp c hc)
  · rintro (_ | _ | _ | _ | ⟨hne, hd⟩ | ⟨hne, hd, hpne, hp⟩)
    · exact .integer hne fun c hc => isDigit_iff.mp (hd c hc)
    · exact .fraction hne (fun c hc => isDigit_iff.mp (hd c hc)) hpne
        fun c hc => isDigit_iff.mp (hp c hc)

section Values
variable {kind : TokenKind} {text : String} {value : Value}

theorem Spelled.lexeme (h : Spelled kind text value) : Lexeme kind text.toList := by
  cases h with
  | symbol s =>
    rw [String.toList_ofList]
    exact .symbol s
  | keyword k => exact .keyword k
  | @identifier first rest hf hr hk =>
    rw [String.toList_ofList]
    apply Lexeme.identifier (isNameStart_iff.mpr hf) fun c hc => isNamePart_iff.mpr (hr c hc)
    intro k he
    exact hk k (by rw [← he, String.ofList_toList])
  | number hd =>
    rw [String.toList_ofList]
    exact decimal_iff.mp hd
  | string hi => simpa using Lexeme.string hi

theorem Spelled.literal (h : Spelled kind text value) : literal? kind text.toList = some value := by
  cases h with
  | symbol | keyword | identifier => rfl
  | number _ hx => rw [String.toList_ofList, literal?, hx, Option.map_some]
  | @string inside _ =>
    have htext : ("\"" ++ inside ++ "\"").toList = '"' :: (inside.toList ++ ['"']) := by simp
    rw [htext, literal?, List.tail_cons, List.dropLast_concat, String.ofList_toList]

/-- A lexeme and its value are a token of the language. -/
private theorem Lexeme.spelled {chars : List Char} (h : Lexeme kind chars)
    (hv : literal? kind chars = some value) : Spelled kind (String.ofList chars) value := by
  cases h with
  | symbol s =>
    cases hv
    exact .symbol s
  | keyword k =>
    cases hv
    rw [String.ofList_toList]
    exact .keyword k
  | @identifier first rest hf hr hk =>
    cases hv
    apply Spelled.identifier (isNameStart_iff.mp hf) fun c hc => isNamePart_iff.mp (hr c hc)
    intro k he
    exact hk k (by rw [he, String.toList_ofList])
  | @string inside hi =>
    rw [literal?, List.cons_append, List.tail_cons, List.dropLast_concat] at hv
    cases hv
    have hi' : '"' ∉ (String.ofList inside).toList := by rwa [String.toList_ofList]
    have htext : String.ofList ('"' :: inside ++ ['"']) = "\"" ++ String.ofList inside ++ "\"" := by
      rw [← String.toList_inj]
      simp
    rw [htext]
    exact .string hi'
  | integer hne hd =>
    obtain ⟨x, hx, rfl⟩ := Option.map_eq_some_iff.mp hv
    exact .number (decimal_iff.mpr (.integer hne hd)) hx
  | fraction hne hd hpne hp =>
    obtain ⟨x, hx, rfl⟩ := Option.map_eq_some_iff.mp hv
    exact .number (decimal_iff.mpr (.fraction hne hd hpne hp)) hx

end Values

theorem spelled_of_mem_lexed {line : Nat} {text : List Char} {t : Token}
    (h : t ∈ lexed line text) : Spelled t.kind t.lexeme t.literal := by
  obtain ⟨kind, chars, value, last, -, hlexeme, hvalue, rfl⟩ := exists_of_mem_lexed h
  exact hlexeme.spelled hvalue

section Spacing
variable {kind : TokenKind} {text rest : List Char}

/-- No lexeme is the start of a comment. -/
private theorem Lexeme.not_slashes (h : Lexeme kind text) : ¬ ['/', '/'] <+: text := by
  rintro ⟨more, rfl⟩
  obtain ⟨s, -, hs⟩ := h.of_other (by decide) (by decide) (by decide)
  cases s <;> simp [Symbol.spelling] at hs

/-- A lexeme is cut as a whole where nothing or a space follows it. -/
theorem Lexeme.fits_alone (h : Lexeme kind text) : Fits (.lexeme kind text) [] := by
  apply Fits.lexeme h
  · intro other longer _ hpre
    rw [List.append_nil] at hpre
    exact hpre.length_le
  · rw [List.append_nil]
    exact h.not_slashes

private theorem Lexeme.fits_spaced (h : Lexeme kind text) (rest : List Char) :
    Fits (.lexeme kind text) (' ' :: rest) := by
  have hend : Fits (.lexeme kind text) ([] ++ []) := h.fits_alone
  exact hend.before_blank (by simp) rfl (.inl (by simp)) rest

end Spacing

/-- The segment that a token is cut as. -/
def Segment.ofToken (t : Token) : Segment := .lexeme t.kind t.lexeme.toList

/-- Lexemes with a space between each two are cut at the spaces. -/
private theorem cut_spaced {tokens : List Token} (h : ∀ t ∈ tokens, Lexeme t.kind t.lexeme.toList) :
    Cut ([' '].intercalate (tokens.map fun t => t.lexeme.toList))
      ((tokens.map Segment.ofToken).intersperse (.blank ' ')) := by
  induction tokens with
  | nil => exact .done
  | cons t rest ih =>
    obtain ⟨ht, hrest⟩ := List.forall_mem_cons.mp h
    cases rest with
    | nil =>
      rw [List.map_singleton, List.intercalate_singleton, ← List.append_nil t.lexeme.toList]
      exact .piece ht.fits_alone .done
    | cons u rest =>
      rw [List.map_cons, List.map_cons, List.intercalate_cons_cons, List.append_assoc]
      have hblank := Cut.piece (s := .blank ' ') (.blank (.inl rfl)) (ih hrest)
      exact .piece (ht.fits_spaced _) hblank

/-- What is read off a list is not changed by separators that nothing is read off. -/
private theorem filterMap_intersperse {α β : Type} {f : α → Option β} {separator : α}
    (h : f separator = none) (items : List α) :
    (items.intersperse separator).filterMap f = items.filterMap f := by
  induction items with
  | nil => rfl
  | cons item rest ih =>
    cases rest with
    | nil => rfl
    | cons next rest =>
      rw [List.intersperse_cons_cons, List.filterMap_cons, List.filterMap_cons_none h, ih,
        ← List.filterMap_cons]

/-- Tokens of the language are scanned from their texts. -/
theorem scan_spaced {tokens : List Token} (h : ∀ t ∈ tokens, Spelled t.kind t.lexeme t.literal) :
    (scan (" ".intercalate (tokens.map Token.lexeme))).errors = [] ∧
      (lexed 1 (" ".intercalate (tokens.map Token.lexeme)).toList).map Token.unplaced =
        tokens.map Token.unplaced := by
  have htext : (" ".intercalate (tokens.map Token.lexeme)).toList =
      [' '].intercalate (tokens.map fun t => t.lexeme.toList) := by
    rw [String.toList_intercalate, List.map_map]
    rfl
  have hsegments := cut_iff.mp (cut_spaced fun t ht => (h t ht).lexeme)
  have htoken : ∀ t ∈ tokens, Segment.token? (Segment.ofToken t, 0) = some t.unplaced := by
    intro t ht
    rw [Segment.ofToken, Segment.token?, (h t ht).literal, Option.map_some, String.ofList_toList]
    rfl
  have herror : ∀ t ∈ tokens, Segment.error? (Segment.ofToken t, 0) = none := by
    intro t ht
    rw [Segment.ofToken, Segment.error?, (h t ht).literal]
    exact if_neg (by simp)
  constructor
  · rw [scan, scanFrom_eq, htext, ← List.map_eq_nil_iff, faults,
      map_filterMap_placed map_unplaced_error?, ← hsegments, filterMap_intersperse rfl,
      List.filterMap_map]
    exact List.filterMap_eq_nil_iff.mpr herror
  · rw [htext, lexed, map_filterMap_placed map_unplaced_token?, ← hsegments,
      filterMap_intersperse rfl, List.filterMap_map]
    exact List.filterMap_eq_map_iff_forall_eq_some.mpr htoken

/-- Tokens and text. The end of input is the last token of a source and no other, and in the others
kind, text and literal agree. The texts of such tokens, with a space between each two, are scanned
without an error as the same tokens. -/
theorem scan_spelled :
    (∀ source, ∃ before last, (scan source).tokens = before ++ [last] ∧
      (∀ t ∈ before, t.kind ≠ .endOfInput ∧ Spelled t.kind t.lexeme t.literal) ∧
      last.kind = .endOfInput ∧ last.lexeme = "" ∧ last.literal = .nil) ∧
    ∀ tokens : List Token, (∀ t ∈ tokens, Spelled t.kind t.lexeme t.literal) →
      (scan (" ".intercalate (tokens.map Token.lexeme))).errors = [] ∧
      (scan (" ".intercalate (tokens.map Token.lexeme))).tokens.map
          (fun t => (t.kind, t.lexeme, t.literal)) =
        tokens.map (fun t => (t.kind, t.lexeme, t.literal)) ++ [(.endOfInput, "", .nil)] := by
  constructor
  · intro source
    refine ⟨lexed 1 source.toList, .endOfInput (1 + newlines source.toList), rfl, ?_, rfl, rfl, rfl⟩
    exact fun t ht => ⟨kind_ne_end_of_mem_lexed ht, spelled_of_mem_lexed ht⟩
  · intro tokens h
    obtain ⟨herrors, hlexed⟩ := scan_spaced h
    have htexts := congrArg (List.map fun t : Token => (t.kind, t.lexeme, t.literal)) hlexed
    rw [List.map_map, List.map_map] at htexts
    refine ⟨herrors, ?_⟩
    rw [scan, scanFrom_eq, List.map_append]
    exact congrArg (· ++ [(TokenKind.endOfInput, "", Value.nil)]) htexts

/-- A number before a point, two slashes, a string with what looks like a comment, and a name that
starts with a keyword. -/
theorem scan_spelled_adjacent :
    let seven := Number.ofCode false (Number.Numeral.toCode ⟨7, 0⟩)
    let tokens : List Token := [⟨.number, "7", .number seven, 1⟩, ⟨.symbol .dot, ".", .nil, 1⟩,
      ⟨.symbol .slash, "/", .nil, 1⟩, ⟨.symbol .slash, "/", .nil, 1⟩,
      ⟨.string, "\"//\n é\"", .string "//\n é", 1⟩, ⟨.identifier, "variable", .nil, 1⟩,
      ⟨.keyword .varWord, "var", .nil, 1⟩]
    (∀ t ∈ tokens, Spelled t.kind t.lexeme t.literal) ∧
      (scan "7 . / / \"//\n é\" variable var").errors = [] ∧
      (scan "7 . / / \"//\n é\" variable var").tokens.map (fun t => (t.kind, t.lexeme, t.literal)) =
        tokens.map (fun t => (t.kind, t.lexeme, t.literal)) ++ [(.endOfInput, "", .nil)] := by
  intro seven tokens
  have hnumber : Spelled .number "7" (.number seven) := by
    have hdecimal : Decimal ['7'] :=
      .integer (by decide) (List.forall_mem_singleton.mpr (by decide))
    have hread : Number.Numeral.ofChars? ['7'] = some ⟨7, 0⟩ := by decide +kernel
    exact .number hdecimal (congrArg (Option.map _) hread)
  have hstring : Spelled .string "\"//\n é\"" (.string "//\n é") :=
    Spelled.string (show '"' ∉ "//\n é".toList by decide +kernel)
  have hname : Spelled .identifier "variable" .nil := by
    have hletters : "ariable".toList.all (fun c => decide (IsLetter c ∨ IsDigit c)) := by decide
    refine @Spelled.identifier 'v' "ariable".toList (by decide) ?_ ?_
    · intro c hc
      exact of_decide_eq_true (List.all_eq_true.mp hletters c hc)
    intro k
    cases k <;> decide +kernel
  have h : ∀ t ∈ tokens, Spelled t.kind t.lexeme t.literal := by
    simp only [tokens, List.forall_mem_cons]
    exact ⟨hnumber, .symbol .dot, .symbol .slash, .symbol .slash, hstring, hname, .keyword .varWord,
      by simp⟩
  have htext : " ".intercalate (tokens.map Token.lexeme) =
      "7 . / / \"//\n é\" variable var" := by
    decide +kernel
  have hscan := scan_spelled.2 tokens h
  rw [htext] at hscan
  exact ⟨h, hscan⟩

end BlockScript.Source
