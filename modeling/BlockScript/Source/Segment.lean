import BlockScript.Diagnostic

/-!
A source text cut into segments from left to right, each the longest that fits. Nothing is lost:
the segments' texts concatenate to the source.
-/
namespace BlockScript.Source

/-- A piece of source text. A comment ends before its newline, a stray character begins nothing,
and an unclosed string has run into the end of the source. -/
inductive Segment where
  | lexeme (kind : TokenKind) (text : List Char)
  | blank (c : Char)
  | comment (text : List Char)
  | stray (c : Char)
  | unclosed (text : List Char)
deriving DecidableEq, Repr

/-- Blanks separate tokens; only the newline moves to the next line. -/
def isBlank (c : Char) : Bool := c = ' ' || c = '\t' || c = '\x0d' || c = '\n'

/-- Names start with an ASCII letter or an underscore. -/
def isNameStart (c : Char) : Bool := c.isAlpha || c = '_'

def isNamePart (c : Char) : Bool := isNameStart c || c.isDigit

/-- A word is a keyword if it is reserved and an identifier otherwise. -/
def wordKind (text : List Char) : TokenKind :=
  match Keyword.ofSpelling? (String.ofList text) with
  | some k => .keyword k
  | none => .identifier

namespace Segment

def text : Segment → List Char
  | lexeme _ text => text
  | blank c => [c]
  | comment text => text
  | stray c => [c]
  | unclosed text => text

/-- The string literal after an opening quote, which ends at the next quote. -/
def quoted (rest : List Char) : Segment × List Char :=
  let inside := rest.takeWhile (· ≠ '"')
  match rest.dropWhile (· ≠ '"') with
  | [] => (unclosed ('"' :: inside), [])
  | quote :: after => (lexeme .string ('"' :: inside ++ [quote]), after)

/-- The number that starts with a digit. A point belongs to it only before another digit. -/
def numeral (first : Char) (rest : List Char) : Segment × List Char :=
  let whole := first :: rest.takeWhile Char.isDigit
  match rest.dropWhile Char.isDigit with
  | '.' :: digit :: after =>
    if digit.isDigit then
      (lexeme .number (whole ++ '.' :: digit :: after.takeWhile Char.isDigit),
        after.dropWhile Char.isDigit)
    else
      (lexeme .number whole, '.' :: digit :: after)
  | after => (lexeme .number whole, after)

/-- The word that starts with a letter. -/
def word (first : Char) (rest : List Char) : Segment × List Char :=
  let text := first :: rest.takeWhile isNamePart
  (lexeme (wordKind text) text, rest.dropWhile isNamePart)

/-- The symbol of one character, or the stray character. -/
def single (first : Char) : Segment :=
  match Symbol.ofSpelling? [first] with
  | some s => lexeme (.symbol s) [first]
  | none => stray first

/-- The longest symbol that starts with a character, or the stray character. -/
def symbol (first : Char) : List Char → Segment × List Char
  | [] => (single first, [])
  | second :: rest =>
    match Symbol.ofSpelling? [first, second] with
    | some s => (lexeme (.symbol s) [first, second], rest)
    | none => (single first, second :: rest)

/-- The first segment of a source that starts with a character, and what follows it. Two slashes
are always a comment. -/
def next (first : Char) (rest : List Char) : Segment × List Char :=
  if isBlank first then (blank first, rest)
  else if first = '"' then quoted rest
  else if first.isDigit then numeral first rest
  else if isNameStart first then word first rest
  else if first = '/' ∧ rest.head? = some '/' then
    (comment (first :: rest.takeWhile (· ≠ '\n')), rest.dropWhile (· ≠ '\n'))
  else symbol first rest

theorem next_text (first : Char) (rest : List Char) :
    (next first rest).1.text ++ (next first rest).2 = first :: rest := by
  unfold next
  split
  · rfl
  split
  · rename_i h
    unfold quoted
    split
    · rename_i hd
      have := List.takeWhile_append_dropWhile (p := (· ≠ '"')) (l := rest)
      simp_all [text]
    · rename_i quote after hd
      have := List.takeWhile_append_dropWhile (p := (· ≠ '"')) (l := rest)
      simp_all [text]
  split
  · unfold numeral
    have := List.takeWhile_append_dropWhile (p := Char.isDigit) (l := rest)
    split
    · rename_i digit after hd
      rw [hd] at this
      split
      · simp [text, this]
      · simp [text, this]
    · simp [text, this]
  split
  · simp [word, text]
  split
  · simp [text]
  · unfold symbol
    split
    · unfold single; split <;> rfl
    · split
      · rfl
      · unfold single; split <;> rfl

theorem next_text_ne_nil (first : Char) (rest : List Char) : (next first rest).1.text ≠ [] := by
  unfold next
  repeat' split
  · simp [text]
  · unfold quoted; split <;> simp [text]
  · unfold numeral; repeat' split
    all_goals simp [text]
  · simp [word, text]
  · simp [text]
  · unfold symbol single; repeat' split
    all_goals simp [text]

theorem next_rest_length (first : Char) (rest : List Char) :
    (next first rest).2.length ≤ rest.length := by
  have h := congrArg List.length (next_text first rest)
  have hp := List.length_pos_iff.mpr (next_text_ne_nil first rest)
  simp only [List.length_append, List.length_cons] at h
  omega

end Segment

/-- The segments of a source. -/
def segments : List Char → List Segment
  | [] => []
  | c :: cs => (Segment.next c cs).1 :: segments (Segment.next c cs).2
termination_by cs => cs.length
decreasing_by exact Nat.lt_succ_of_le (Segment.next_rest_length c cs)

theorem segments_nil : segments [] = [] := by rw [segments]

theorem segments_cons (c : Char) (cs : List Char) :
    segments (c :: cs) = (Segment.next c cs).1 :: segments (Segment.next c cs).2 := by
  rw [segments]

/-- Every character of a source is in one segment, in order. -/
theorem flatMap_text_segments (cs : List Char) : (segments cs).flatMap Segment.text = cs := by
  fun_induction segments cs with
  | case1 => rfl
  | case2 c cs ih => rw [List.flatMap_cons, ih, Segment.next_text]

end BlockScript.Source
