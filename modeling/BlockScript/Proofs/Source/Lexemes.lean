import BlockScript.Source.Scan

/-!
The lexemes of the language by their kinds. The first character tells which rule a lexeme follows,
and its text tells its kind.
-/
namespace BlockScript.Source

/-- The texts of each kind of token. -/
inductive Lexeme : TokenKind → List Char → Prop where
  | symbol (s : Symbol) : Lexeme (.symbol s) s.spelling
  | keyword (k : Keyword) : Lexeme (.keyword k) k.spelling.toList
  | identifier {first : Char} {rest : List Char} :
      isNameStart first = true → (∀ c ∈ rest, isNamePart c = true) →
      (∀ k : Keyword, k.spelling.toList ≠ first :: rest) → Lexeme .identifier (first :: rest)
  | string {inside : List Char} : '"' ∉ inside → Lexeme .string ('"' :: inside ++ ['"'])
  | integer {digits : List Char} :
      digits ≠ [] → (∀ c ∈ digits, c.isDigit = true) → Lexeme .number digits
  | fraction {whole part : List Char} :
      whole ≠ [] → (∀ c ∈ whole, c.isDigit = true) → part ≠ [] →
      (∀ c ∈ part, c.isDigit = true) → Lexeme .number (whole ++ '.' :: part)

section Characters
variable {c : Char}

private theorem isDigit_of_isNameStart (h : isNameStart c = true) : c.isDigit = false := by
  rw [Bool.eq_false_iff]
  intro hd
  obtain ⟨hlow, hhigh⟩ := Char.isDigit_iff_toNat.mp hd
  change ((decide (65 ≤ c.val ∧ c.val ≤ 90) || (decide (97 ≤ c.val) && decide (c.val ≤ 122))) ||
    decide (c = '_')) = true at h
  simp only [Bool.or_eq_true, Bool.and_eq_true, decide_eq_true_eq, UInt32.le_iff_toNat_le] at h
  change 48 ≤ c.val.toNat at hlow
  change c.val.toNat ≤ 57 at hhigh
  rcases h with (⟨hupper, -⟩ | ⟨hlower, -⟩) | rfl
  · exact absurd (Nat.le_trans hupper hhigh) (by decide)
  · exact absurd (Nat.le_trans hlower hhigh) (by decide)
  · exact absurd hhigh (by decide)

theorem isBlank_iff : isBlank c = true ↔ c = ' ' ∨ c = '\t' ∨ c = '\x0d' ∨ c = '\n' := by
  simp [isBlank, or_assoc]

theorem isBlank_of_isNameStart (h : isNameStart c = true) : isBlank c = false := by
  rw [Bool.eq_false_iff, ne_eq, isBlank_iff]
  rintro (rfl | rfl | rfl | rfl) <;> exact absurd h (by decide)

theorem isBlank_of_isDigit (h : c.isDigit = true) : isBlank c = false := by
  rw [Bool.eq_false_iff, ne_eq, isBlank_iff]
  rintro (rfl | rfl | rfl | rfl) <;> exact absurd h (by decide)

theorem isBlank_of_isNamePart (h : isNamePart c = true) : isBlank c = false := by
  rcases Bool.or_eq_true_iff.mp h with hn | hd
  · exact isBlank_of_isNameStart hn
  · exact isBlank_of_isDigit hd

end Characters

/-- A run of a class that nothing of the class follows is cut where it ends. -/
theorem span_append {p : Char → Bool} {run rest : List Char} (h : ∀ c ∈ run, p c = true)
    (hrest : ∀ c ∈ rest.head?, p c = false) :
    (run ++ rest).takeWhile p = run ∧ (run ++ rest).dropWhile p = rest := by
  rw [List.takeWhile_append_of_pos h, List.dropWhile_append_of_pos h]
  cases rest with
  | nil => simp
  | cons c more =>
    have hc : p c = false := hrest c rfl
    simp [hc]

section Numerals
open Number
variable {digits whole part : List Char}

/-- A row of digits is read as one number. -/
theorem ofChars?_integer (hne : digits ≠ []) (hd : ∀ c ∈ digits, c.isDigit = true) :
    Numeral.ofChars? digits = some ⟨Nat.ofDigitChars 10 digits 0, 0⟩ := by
  obtain ⟨htake, hdrop⟩ :=
    span_append hd (by simp : ∀ c ∈ ([] : List Char).head?, c.isDigit = false)
  rw [List.append_nil] at htake hdrop
  obtain ⟨c, rest, rfl⟩ := List.exists_cons_of_ne_nil hne
  rw [Numeral.ofChars?, htake, hdrop]

/-- The digits on both sides of a point are read as one number, with a place for each behind it. -/
theorem ofChars?_fraction (hne : whole ≠ []) (hd : ∀ c ∈ whole, c.isDigit = true)
    (hpne : part ≠ []) (hp : ∀ c ∈ part, c.isDigit = true) :
    Numeral.ofChars? (whole ++ '.' :: part) =
      some ⟨Nat.ofDigitChars 10 (whole ++ part) 0, part.length⟩ := by
  obtain ⟨htake, hdrop⟩ :=
    span_append hd (by simp [Char.isDigit] : ∀ c ∈ ('.' :: part).head?, c.isDigit = false)
  obtain ⟨c, rest, rfl⟩ := List.exists_cons_of_ne_nil hne
  simp only [Numeral.ofChars?, htake, hdrop]
  rw [if_pos ⟨trivial, hpne, List.all_eq_true.mpr hp⟩]

end Numerals

/-- Symbols have one or two characters, and the first is a symbol too and of no other class. -/
theorem symbol_shape (s : Symbol) :
    ∃ c rest, s.spelling = c :: rest ∧ rest.length ≤ 1 ∧ (Symbol.ofSpelling? [c]).isSome = true ∧
      isBlank c = false ∧ c ≠ '"' ∧ c.isDigit = false ∧ isNameStart c = false := by
  cases s <;> refine ⟨_, _, rfl, ?_⟩ <;> decide

private theorem keyword_shape (k : Keyword) :
    ∃ c rest, k.spelling.toList = c :: rest ∧ isNameStart c = true ∧
      ∀ d ∈ rest, isNamePart d = true := by
  cases k <;> exact ⟨_, _, rfl, by decide, List.all_eq_true.mp (by decide)⟩

/-- A word is a lexeme of the kind that its text has. -/
theorem lexeme_wordKind {first : Char} {rest : List Char} (hf : isNameStart first = true)
    (hr : ∀ c ∈ rest, isNamePart c = true) :
    Lexeme (wordKind (first :: rest)) (first :: rest) := by
  unfold wordKind
  split
  · rename_i k hk
    rw [← String.toList_ofList (l := first :: rest), ← Keyword.spelling_of_ofSpelling? hk]
    exact .keyword k
  · rename_i hk
    apply Lexeme.identifier hf hr
    intro k he
    have hnot := List.find?_eq_none.mp hk k (Keyword.mem_all k)
    simp [← he] at hnot

namespace Lexeme
variable {kind kind' : TokenKind} {text rest : List Char} {c : Char}

/-- The first character tells which rule made the lexeme. -/
private theorem shape (h : Lexeme kind text) : ∃ c rest, text = c :: rest ∧
    ((c = '"' ∧ kind = .string ∧ ∃ inside, rest = inside ++ ['"'] ∧ '"' ∉ inside) ∨
      (c.isDigit = true ∧ kind = .number) ∨
      (isNameStart c = true ∧ kind = wordKind text ∧ ∀ d ∈ rest, isNamePart d = true) ∨
      (isBlank c = false ∧ c ≠ '"' ∧ c.isDigit = false ∧ isNameStart c = false ∧
        ∃ s : Symbol, kind = .symbol s ∧ s.spelling = text)) := by
  cases h with
  | symbol s =>
    obtain ⟨c, rest, hs, _, _, hb, hq, hd, hn⟩ := symbol_shape s
    exact ⟨c, rest, hs, .inr (.inr (.inr ⟨hb, hq, hd, hn, s, rfl, rfl⟩))⟩
  | keyword k =>
    obtain ⟨c, rest, hk, hc, hrest⟩ := keyword_shape k
    have hkind : wordKind k.spelling.toList = .keyword k := by
      simp [wordKind, Keyword.ofSpelling?_spelling]
    exact ⟨c, rest, hk, .inr (.inr (.inl ⟨hc, hkind.symm, hrest⟩))⟩
  | @identifier first rest hf hr hk =>
    refine ⟨first, rest, rfl, .inr (.inr (.inl ⟨hf, ?_, hr⟩))⟩
    unfold wordKind
    split
    · rename_i k hfound
      refine absurd ?_ (hk k)
      rw [Keyword.spelling_of_ofSpelling? hfound, String.toList_ofList]
    · rfl
  | @string inside hi => exact ⟨'"', _, rfl, .inl ⟨rfl, rfl, inside, rfl, hi⟩⟩
  | integer hne hd =>
    obtain ⟨c, rest, rfl⟩ := List.exists_cons_of_ne_nil hne
    exact ⟨c, rest, rfl, .inr (.inl ⟨hd c (by simp), rfl⟩)⟩
  | fraction hne hd =>
    obtain ⟨c, rest, rfl⟩ := List.exists_cons_of_ne_nil hne
    exact ⟨c, _, rfl, .inr (.inl ⟨hd c (by simp), rfl⟩)⟩

theorem head (h : Lexeme kind text) : ∃ c rest, text = c :: rest ∧ isBlank c = false := by
  obtain ⟨c, rest, rfl, ⟨rfl, -⟩ | ⟨hd, -⟩ | ⟨hn, -⟩ | ⟨hb, -⟩⟩ := h.shape
  · exact ⟨_, rest, rfl, by decide⟩
  · exact ⟨c, rest, rfl, isBlank_of_isDigit hd⟩
  · exact ⟨c, rest, rfl, isBlank_of_isNameStart hn⟩
  · exact ⟨c, rest, rfl, hb⟩

theorem of_quote (h : Lexeme kind ('"' :: rest)) :
    kind = .string ∧ ∃ inside, rest = inside ++ ['"'] ∧ '"' ∉ inside := by
  obtain ⟨c, more, he, hshape⟩ := h.shape
  obtain ⟨rfl, rfl⟩ := List.cons.inj he
  rcases hshape with ⟨-, hs⟩ | ⟨hd, -⟩ | ⟨hn, -⟩ | ⟨-, hq, -⟩
  · exact hs
  · exact absurd hd (by decide)
  · exact absurd hn (by decide)
  · exact absurd rfl hq

/-- A lexeme that starts with a digit is a number, which goes on with digits or has one point. -/
theorem of_isDigit (h : Lexeme kind (c :: rest)) (hc : c.isDigit = true) :
    kind = .number ∧ ((∀ d ∈ rest, d.isDigit = true) ∨
      ∃ whole digit part, rest = whole ++ '.' :: digit :: part ∧
        (∀ d ∈ whole, d.isDigit = true) ∧ ∀ d ∈ digit :: part, d.isDigit = true) := by
  obtain ⟨d, more, he, hshape⟩ := h.shape
  obtain ⟨rfl, rfl⟩ := List.cons.inj he
  have hk : kind = .number := by
    rcases hshape with ⟨rfl, -⟩ | ⟨-, hk⟩ | ⟨hn, -⟩ | ⟨-, -, hd, -⟩
    · exact absurd hc (by decide)
    · exact hk
    · simp [isDigit_of_isNameStart hn] at hc
    · simp [hd] at hc
  refine ⟨hk, ?_⟩
  subst hk
  generalize ht : c :: rest = text at h
  cases h with
  | integer _ hd =>
    subst ht
    exact .inl fun d hmem => hd d (List.mem_cons_of_mem _ hmem)
  | @fraction whole part hne hd hpne hp =>
    obtain ⟨first, whole, rfl⟩ := List.exists_cons_of_ne_nil hne
    obtain ⟨digit, part, rfl⟩ := List.exists_cons_of_ne_nil hpne
    obtain ⟨rfl, rfl⟩ := List.cons.inj ht
    exact .inr ⟨whole, digit, part, rfl, fun d hmem => hd d (List.mem_cons_of_mem _ hmem), hp⟩

/-- A lexeme that starts with a letter is a word. -/
theorem of_isNameStart (h : Lexeme kind (c :: rest)) (hc : isNameStart c = true) :
    kind = wordKind (c :: rest) ∧ ∀ d ∈ rest, isNamePart d = true := by
  obtain ⟨d, more, he, hshape⟩ := h.shape
  obtain ⟨rfl, rfl⟩ := List.cons.inj he
  rcases hshape with ⟨rfl, -⟩ | ⟨hd, -⟩ | ⟨-, hw⟩ | ⟨-, -, -, hn, -⟩
  · exact absurd hc (by decide)
  · simp [isDigit_of_isNameStart hc] at hd
  · exact hw
  · simp [hn] at hc

/-- Any other lexeme is a symbol. -/
theorem of_other (h : Lexeme kind (c :: rest)) (hq : c ≠ '"') (hd : c.isDigit = false)
    (hn : isNameStart c = false) : ∃ s : Symbol, kind = .symbol s ∧ s.spelling = c :: rest := by
  obtain ⟨d, more, he, hshape⟩ := h.shape
  obtain ⟨rfl, rfl⟩ := List.cons.inj he
  rcases hshape with ⟨rfl, -⟩ | ⟨hd', -⟩ | ⟨hn', -⟩ | ⟨-, -, -, -, hs⟩
  · exact absurd rfl hq
  · simp [hd] at hd'
  · simp [hn] at hn'
  · exact hs

/-- No text is a lexeme of two kinds. -/
theorem kind_unique (h : Lexeme kind text) (h' : Lexeme kind' text) : kind = kind' := by
  obtain ⟨c, rest, rfl, -⟩ := h.head
  by_cases hq : c = '"'
  · subst hq
    rw [h.of_quote.1, h'.of_quote.1]
  by_cases hd : c.isDigit = true
  · rw [(h.of_isDigit hd).1, (h'.of_isDigit hd).1]
  by_cases hn : isNameStart c = true
  · rw [(h.of_isNameStart hn).1, (h'.of_isNameStart hn).1]
  · rw [Bool.not_eq_true] at hd hn
    obtain ⟨s, rfl, hs⟩ := h.of_other hq hd hn
    obtain ⟨s', rfl, hs'⟩ := h'.of_other hq hd hn
    have he := Symbol.ofSpelling?_spelling s
    rw [hs, ← hs', Symbol.ofSpelling?_spelling] at he
    cases he
    rfl

theorem kind_ne_end (h : Lexeme kind text) : kind ≠ .endOfInput := by
  cases h <;> simp

theorem number_head (h : Lexeme .number text) :
    ∃ c rest, text = c :: rest ∧ c.isDigit = true := by
  cases h with
  | integer hne hd | fraction hne hd =>
    obtain ⟨c, rest, rfl⟩ := List.exists_cons_of_ne_nil hne
    exact ⟨c, _, rfl, hd c List.mem_cons_self⟩

theorem isDigit_or_point (h : Lexeme .number text) : ∀ c ∈ text, c.isDigit = true ∨ c = '.' := by
  intro c hc
  cases h with
  | integer _ hd => exact .inl (hd c hc)
  | fraction _ hd _ hp =>
    rcases List.mem_append.mp hc with hc | hc
    · exact .inl (hd c hc)
    · exact (List.mem_cons.mp hc).symm.imp_left (hp c)

/-- What is no string and no symbol is a word or a number. -/
theorem isNamePart_or_point (h : Lexeme kind text) (hstring : kind ≠ .string)
    (hsymbol : ∀ s, kind ≠ .symbol s) : ∀ c ∈ text, isNamePart c = true ∨ c = '.' := by
  cases h with
  | symbol s => exact absurd rfl (hsymbol s)
  | string => exact absurd rfl hstring
  | keyword k =>
    obtain ⟨first, rest, htext, hfirst, hrest⟩ := keyword_shape k
    rw [htext]
    exact List.forall_mem_cons.mpr ⟨.inl (by rw [isNamePart, hfirst, Bool.true_or]),
      fun c hc => .inl (hrest c hc)⟩
  | identifier hf hr =>
    exact List.forall_mem_cons.mpr ⟨.inl (by rw [isNamePart, hf, Bool.true_or]),
      fun c hc => .inl (hr c hc)⟩
  | integer hne hd =>
    exact fun c hc => .inl (by rw [isNamePart, hd c hc, Bool.or_true])
  | fraction hne hd hpne hp =>
    have hnumber := isDigit_or_point (.fraction hne hd hpne hp)
    exact fun c hc => (hnumber c hc).imp_left fun hdigit => by rw [isNamePart, hdigit, Bool.or_true]

/-- Both forms of numbers can be read. -/
theorem ofChars?_isSome (h : Lexeme .number text) :
    (Number.Numeral.ofChars? text).isSome = true := by
  cases h with
  | integer hne hd => rw [ofChars?_integer hne hd, Option.isSome_some]
  | fraction hne hd hpne hp => rw [ofChars?_fraction hne hd hpne hp, Option.isSome_some]

/-- Every lexeme has a value, if only nil. -/
theorem literal?_ne_none (h : Lexeme kind text) : literal? kind text ≠ none := by
  unfold literal?
  split
  · obtain ⟨d, hd⟩ := Option.isSome_iff_exists.mp h.ofChars?_isSome
    simp [Number.ofChars?, hd]
  · simp
  · simp

end Lexeme

end BlockScript.Source
