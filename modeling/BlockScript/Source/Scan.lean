import BlockScript.Source.Segment

/-!
The tokens and lexical errors of a source: each segment, with the line its text ends on, gives a
token, an error or nothing.
-/
namespace BlockScript.Source

def newlines (text : List Char) : Nat := text.count '\n'

/-- Segments with the line on which each ends, when the first starts on the given line. -/
def placed : Nat → List Segment → List (Segment × Nat)
  | _, [] => []
  | line, s :: rest =>
    let last := line + newlines s.text
    (s, last) :: placed last rest

/-- The value that a lexeme stands for: a number or string literal's own, and nil for any other. -/
def literal? (kind : TokenKind) (text : List Char) : Option Value :=
  match kind with
  | .number => (Number.ofChars? text).map .number
  | .string => some (.string (String.ofList text.tail.dropLast))
  | _ => some .nil

namespace Segment

/-- The token of a segment that ends on a line. -/
def token? : Segment × Nat → Option Token
  | (lexeme kind text, line) =>
    (literal? kind text).map fun value => ⟨kind, String.ofList text, value, line⟩
  | _ => none

/-- The error of a segment that ends on a line. -/
def error? : Segment × Nat → Option LexicalError
  | (lexeme kind text, line) =>
    if literal? kind text = none then some ⟨.malformedNumber, line⟩ else none
  | (stray _, line) => some ⟨.unexpectedCharacter, line⟩
  | (unclosed _, line) => some ⟨.unterminatedString, line⟩
  | _ => none

end Segment

/-- What a source text consists of; the last token is always the end of input. -/
structure Scan where
  tokens : List Token
  errors : List LexicalError
deriving DecidableEq

/-- Scans a source whose first line has the given number. -/
def scanFrom (line : Nat) (text : List Char) : Scan :=
  let pieces := placed line (segments text)
  ⟨pieces.filterMap Segment.token? ++ [.endOfInput (line + newlines text)],
    pieces.filterMap Segment.error?⟩

def scan (source : String) : Scan := scanFrom 1 source.toList

end BlockScript.Source
