import BlockScript.Proofs.Source.Joining
import BlockScript.Proofs.Source.Munch
import Mathlib.Data.List.Basic
import Mathlib.Logic.Relation

/-!
Scanning one character at a time. A scan under way keeps the text of what it is in the middle of in
one buffer, whatever that is, and its phase tells what it does next. Its steps end with the tokens
and the errors of the source's segments.
-/
namespace BlockScript.Source

/-- The text from a byte on, if a character starts or the text ends there. -/
def sliceFrom? (text : String) (byte : Nat) : Option String :=
  if h : String.Pos.Raw.isValid text ⟨byte⟩ = true then
    some (text.sliceFrom (text.pos ⟨byte⟩ (String.Pos.Raw.isValid_eq_true_iff.mp h))).copy
  else none

theorem sliceFrom?_append (front back : String) :
    sliceFrom? (front ++ back) front.utf8ByteSize = some back := by
  have hvalid : String.Pos.Raw.IsValid (front ++ back) ⟨front.utf8ByteSize⟩ :=
    String.Pos.Raw.isValid_iff_exists_append.mpr ⟨front, back, rfl, rfl⟩
  have hsplits : ((front ++ back).pos ⟨front.utf8ByteSize⟩ hvalid).Splits front back := ⟨rfl, rfl⟩
  rw [sliceFrom?, dif_pos (String.Pos.Raw.isValid_eq_true_iff.mpr hvalid)]
  exact congrArg some (((front ++ back).pos _ hvalid).splits.eq_right hsplits)

/-- No byte inside a character is one to slice from. -/
example : sliceFrom? "é" 1 = none := by decide

/-- What a scan is in the middle of. After its first character a token is judged by it; a number
is read when its text is complete; and a slice off the boundaries of characters breaks the scan. -/
inductive Phase where
  | between
  | judging (first : Char)
  | comment
  | string
  | whole
  | fraction
  | numeral
  | word
  | complete (kind : TokenKind)
  | broken
deriving DecidableEq, Repr

/-- The characters that a phase goes on with for as long as they come. -/
def Phase.takes : Phase → Char → Bool
  | comment, c => c ≠ '\n'
  | string, c => c ≠ '"'
  | whole, c => c.isDigit
  | fraction, c => c.isDigit
  | word, c => isNamePart c
  | _, _ => false

/-- The character that a symbol may go on with, and what both together are. -/
def continuation? : Symbol → Option (Char × Phase)
  | .bang => some ('=', .complete (.symbol .bangEqual))
  | .equal => some ('=', .complete (.symbol .equalEqual))
  | .less => some ('=', .complete (.symbol .lessEqual))
  | .greater => some ('=', .complete (.symbol .greaterEqual))
  | .slash => some ('/', .comment)
  | _ => none

/-- A scan under way. -/
structure Scanning where
  phase : Phase
  unread : List Char
  buffer : String
  line : Nat
  tokens : List Token
  errors : List LexicalError

namespace Scanning

def start (source : String) : Scanning := ⟨.between, source.toList, "", 1, [], []⟩

/-- Moves a character from the source to the buffer. -/
def take (s : Scanning) (c : Char) (rest : List Char) (phase : Phase) : Scanning :=
  { s with phase, unread := rest, buffer := s.buffer.push c }

/-- Goes on with text that the phase takes. A comment is not kept, and lines are counted in
strings. -/
def absorb (s : Scanning) (text rest : List Char) : Scanning :=
  { s with
    unread := rest
    buffer := if s.phase = .comment then s.buffer else s.buffer ++ String.ofList text
    line := if s.phase = .string then s.line + newlines text else s.line }

/-- Drops what is in the buffer. -/
def clear (s : Scanning) : Scanning := { s with phase := .between, buffer := "" }

def report (s : Scanning) (fault : LexicalFault) : Scanning :=
  { s.clear with errors := s.errors ++ [⟨fault, s.line⟩] }

/-- Makes a token of what is in the buffer. -/
def close (s : Scanning) (kind : TokenKind) (value : Value) : Scanning :=
  { s.clear with tokens := s.tokens ++ [⟨kind, s.buffer, value, s.line⟩] }

/-- A symbol, with the next character if that belongs to it. -/
def symbol (s : Scanning) (single : Symbol) : Scanning :=
  match continuation? single, s.unread with
  | some (second, phase), c :: rest =>
    if c = second then s.take c rest phase else { s with phase := .complete (.symbol single) }
  | _, _ => { s with phase := .complete (.symbol single) }

/-- Decides by its first character what a token is. -/
def judge (s : Scanning) (first : Char) : Scanning :=
  if isBlank first then { s.clear with line := s.line + newlines [first] }
  else if first = '"' then { s with phase := .string }
  else if first.isDigit then { s with phase := .whole }
  else if isNameStart first then { s with phase := .word }
  else
    match Symbol.ofSpelling? [first] with
    | some single => s.symbol single
    | none => s.report .unexpectedCharacter

/-- Ends a string, at its closing quote or at the end of the source. The opening quote is one byte
long. -/
def closeString (s : Scanning) : Scanning :=
  match s.unread with
  | [] => s.report .unterminatedString
  | _ :: rest =>
    match sliceFrom? s.buffer 1 with
    | some value =>
      close { s with unread := rest, buffer := s.buffer.push '"' } .string (.string value)
    | none => { s with phase := .broken }

/-- A point is part of a number only before another digit. -/
def point (s : Scanning) : Scanning :=
  match s.unread with
  | '.' :: digit :: rest =>
    if digit.isDigit then s.take '.' (digit :: rest) .fraction else { s with phase := .numeral }
  | _ => { s with phase := .numeral }

def closeNumeral (s : Scanning) : Scanning :=
  match Number.ofChars? s.buffer.toList with
  | some x => s.close .number (.number x)
  | none => s.report .malformedNumber

/-- Ends a phase that cannot go on. -/
def finish (s : Scanning) : Option Scanning :=
  match s.phase, s.unread with
  | .between, [] => none
  | .between, c :: rest => some (s.take c rest (.judging c))
  | .judging first, _ => some (s.judge first)
  | .comment, _ => some s.clear
  | .string, _ => some s.closeString
  | .whole, _ => some s.point
  | .fraction, _ => some { s with phase := .numeral }
  | .numeral, _ => some s.closeNumeral
  | .word, _ => some { s with phase := .complete (wordKind s.buffer.toList) }
  | .complete kind, _ => some (s.close kind .nil)
  | .broken, _ => none

def step (s : Scanning) : Option Scanning :=
  match s.unread with
  | c :: rest => if s.phase.takes c then some (s.absorb [c] rest) else s.finish
  | [] => s.finish

def Steps (s t : Scanning) : Prop := s.step = some t

/-- The scans that steps lead to. -/
def Reaches : Scanning → Scanning → Prop := Relation.ReflTransGen Steps

/-- What a scan has found when its source ends. -/
def found (s : Scanning) : Scan := ⟨s.tokens ++ [.endOfInput s.line], s.errors⟩

section Steps
variable {s t : Scanning} {c : Char} {text more rest : List Char}

private theorem step_absorb (hs : s.unread = c :: rest) (hc : s.phase.takes c = true) :
    s.step = some (s.absorb [c] rest) := by
  rw [step, hs]
  exact if_pos hc

private theorem step_finish (h : ∀ c ∈ s.unread.head?, s.phase.takes c = false) :
    s.step = s.finish := by
  rw [step]
  cases hs : s.unread with
  | nil => rfl
  | cons c rest =>
    have hc : s.phase.takes c = false := h c (by rw [hs]; rfl)
    exact if_neg (by rw [hc]; exact Bool.false_ne_true)

/-- A step goes on with a phase or ends it. -/
theorem step_cases (h : s.step = some t) :
    (∃ c rest, s.unread = c :: rest ∧ s.phase.takes c = true ∧ t = s.absorb [c] rest) ∨
      (∀ c ∈ s.unread.head?, s.phase.takes c = false) ∧ s.finish = some t := by
  by_cases hstop : ∀ c ∈ s.unread.head?, s.phase.takes c = false
  · exact .inr ⟨hstop, (step_finish hstop).symm.trans h⟩
  · simp only [not_forall, Bool.not_eq_false] at hstop
    obtain ⟨c, hmem, hc⟩ := hstop
    obtain ⟨rest, hs⟩ := List.head?_eq_some_iff.mp hmem
    rw [step_absorb hs hc] at h
    exact .inl ⟨c, rest, hs, hc, (Option.some.inj h).symm⟩

private theorem absorb_absorb :
    (s.absorb text (more ++ rest)).absorb more rest = s.absorb (text ++ more) rest := by
  unfold absorb
  congr 1
  · dsimp only
    split
    · rfl
    · rw [String.ofList_append, String.append_assoc]
  · dsimp only
    split
    · rw [newlines_append, Nat.add_assoc]
    · rfl

private theorem absorb_nil (hs : s.unread = rest) : s.absorb [] rest = s := by
  obtain ⟨phase, unread, buffer, line, tokens, errors⟩ := s
  obtain rfl : unread = rest := hs
  unfold absorb
  congr 1
  · exact ite_eq_left_iff.mpr fun _ => String.append_empty
  · exact ite_eq_right_iff.mpr fun _ => rfl

/-- A phase goes on to the end of the text that it takes. -/
private theorem reaches_absorb (hs : s.unread = text ++ rest)
    (ht : ∀ c ∈ text, s.phase.takes c = true) :
    s.Reaches (s.absorb text rest) := by
  induction text generalizing s with
  | nil =>
    have hsame : s.absorb [] rest = s := absorb_nil hs
    rw [hsame]
    exact .refl
  | cons c more ih =>
    obtain ⟨hc, hmore⟩ := List.forall_mem_cons.mp ht
    have hfirst : s.Steps (s.absorb [c] (more ++ rest)) := step_absorb hs hc
    have hrest := ih (s := s.absorb [c] (more ++ rest)) rfl hmore
    rw [absorb_absorb] at hrest
    exact .head hfirst hrest

/-- The scan at the end of its phase. -/
def settled (s : Scanning) : Scanning :=
  s.absorb (s.unread.takeWhile s.phase.takes) (s.unread.dropWhile s.phase.takes)

private theorem reaches_of_finish_settled (h : s.settled.finish = some t) : s.Reaches t := by
  have hrun : s.Reaches s.settled :=
    reaches_absorb List.takeWhile_append_dropWhile.symm mem_takeWhile
  have hstop : s.settled.step = s.settled.finish := step_finish mem_head?_dropWhile
  exact hrun.tail (hstop.trans h)

/-- A phase that takes nothing ends at once. -/
private theorem reaches_of_finish (hs : s.phase.takes = fun _ => false) (h : s.finish = some t) :
    s.Reaches t :=
  .single ((step_finish fun c _ => congrFun hs c).trans h)

end Steps

/-- The scan that has dealt with a segment. -/
def after (s : Scanning) (segment : Segment) (rest : List Char) : Scanning :=
  let last := s.line + newlines segment.text
  ⟨.between, rest, "", last, s.tokens ++ (Segment.token? (segment, last)).toList,
    s.errors ++ (Segment.error? (segment, last)).toList⟩

/-- The scan in a phase, with some text in the buffer and some unread. -/
def amid (s : Scanning) (phase : Phase) (text rest : List Char) : Scanning :=
  { s with phase, unread := rest, buffer := String.ofList text }

section Segments
variable {s : Scanning} {phase next : Phase} {kind : TokenKind} {c : Char} {text rest : List Char}

theorem take_amid :
    (s.amid phase text (c :: rest)).take c rest next = s.amid next (text ++ [c]) rest := by
  unfold take amid
  congr 1
  rw [String.push_eq_append, String.ofList_append]
  rfl

/-- The end of a phase in which all characters are kept and none is a newline. -/
private theorem settled_amid (hcomment : phase ≠ .comment) (hstring : phase ≠ .string) :
    (s.amid phase text rest).settled =
      s.amid phase (text ++ rest.takeWhile phase.takes) (rest.dropWhile phase.takes) := by
  unfold settled absorb amid
  congr 1
  · exact (if_neg hcomment).trans String.ofList_append.symm
  · exact if_neg hstring

private theorem newlines_eq_zero (h : ∀ c ∈ text, isBlank c = false) : newlines text = 0 :=
  List.count_eq_zero.mpr fun hmem => absurd (h _ hmem) (by decide)

/-- A lexeme with a value gives a token and no error. -/
private theorem after_lexeme {value : Value} (hvalue : literal? kind text = some value) :
    s.after (.lexeme kind text) rest =
      ⟨.between, rest, "", s.line + newlines text,
        s.tokens ++ [⟨kind, String.ofList text, value, s.line + newlines text⟩], s.errors⟩ := by
  simp [after, Segment.text, Segment.token?, Segment.error?, hvalue]

/-- A lexeme without blanks ends on the line that it starts on. -/
private theorem close_amid {value : Value} (hvalue : literal? kind text = some value)
    (hline : ∀ c ∈ text, isBlank c = false) :
    (s.amid phase text rest).close kind value = s.after (.lexeme kind text) rest := by
  rw [after_lexeme hvalue, newlines_eq_zero hline]
  rfl

/-- A token that is no literal is complete with its kind. -/
private theorem reaches_complete (hvalue : literal? kind text = some .nil)
    (hline : ∀ c ∈ text, isBlank c = false) :
    (s.amid (.complete kind) text rest).Reaches (s.after (.lexeme kind text) rest) := by
  apply reaches_of_finish rfl
  rw [← close_amid hvalue hline]
  rfl

private theorem reaches_numeral (h : Lexeme .number text) :
    (s.amid .numeral text rest).Reaches (s.after (.lexeme .number text) rest) := by
  have hline : ∀ c ∈ text, isBlank c = false := by
    intro c hc
    rcases h.isDigit_or_point c hc with hd | rfl
    · exact isBlank_of_isDigit hd
    · decide
  obtain ⟨value, hvalue⟩ := Option.ne_none_iff_exists'.mp h.literal?_ne_none
  obtain ⟨x, hx, rfl⟩ := Option.map_eq_some_iff.mp hvalue
  have hclose : (s.amid .numeral text rest).closeNumeral = s.after (.lexeme .number text) rest := by
    rw [← close_amid hvalue hline, closeNumeral, amid, String.toList_ofList, hx]
  exact reaches_of_finish rfl (congrArg some hclose)

theorem finish_word : (s.amid .word text rest).finish =
    some (s.amid (.complete (wordKind text)) text rest) := by simp [amid, finish]

private theorem reaches_word (hc : isNameStart c = true) :
    (s.amid .word [c] rest).Reaches
      (s.after (Segment.word c rest).1 (Segment.word c rest).2) := by
  have hrun : ∀ d ∈ c :: rest.takeWhile isNamePart, isNamePart d = true :=
    List.forall_mem_cons.mpr ⟨by rw [isNamePart, hc, Bool.true_or], mem_takeWhile⟩
  have hsettled : (s.amid .word [c] rest).settled =
      s.amid .word (c :: rest.takeWhile isNamePart) (rest.dropWhile isNamePart) :=
    settled_amid (by simp) (by simp)
  rw [Segment.word]
  generalize c :: rest.takeWhile isNamePart = run at hrun hsettled
  have hend : (s.amid .word [c] rest).settled.finish =
      some (s.amid (.complete (wordKind run)) run (rest.dropWhile isNamePart)) := by
    rw [hsettled, finish_word]
  have hvalue : literal? (wordKind run) run = some .nil := by
    unfold wordKind
    split <;> rfl
  exact (reaches_of_finish_settled hend).trans
    (reaches_complete hvalue fun d hd => isBlank_of_isNamePart (hrun d hd))

/-- A point before a digit starts a fraction. -/
private theorem point_of_isDigit (hc : c.isDigit = true) :
    (s.amid .whole text ('.' :: c :: rest)).point =
      s.amid .fraction (text ++ ['.']) (c :: rest) :=
  (if_pos hc).trans take_amid

/-- Any other text behind the first digits ends the number. -/
private theorem point_of_not_isDigit (h : ∀ c more, rest = '.' :: c :: more → c.isDigit = false) :
    (s.amid .whole text rest).point = s.amid .numeral text rest := by
  rw [point]
  split
  · rename_i c more hrest
    exact if_neg (by rw [h c more hrest]; exact Bool.false_ne_true)
  · rfl

/-- Behind a point with a digit the number goes on to its last digit. -/
private theorem reaches_fraction (hne : text ≠ []) (htext : ∀ d ∈ text, d.isDigit = true)
    (hc : c.isDigit = true) :
    (s.amid .fraction (text ++ ['.']) (c :: rest)).Reaches
      (s.after (.lexeme .number (text ++ '.' :: c :: rest.takeWhile Char.isDigit))
        (rest.dropWhile Char.isDigit)) := by
  have hpart : ∀ d ∈ c :: rest.takeWhile Char.isDigit, d.isDigit = true :=
    List.forall_mem_cons.mpr ⟨hc, mem_takeWhile⟩
  have hsettled : (s.amid .fraction (text ++ ['.']) (c :: rest)).settled =
      s.amid .fraction (text ++ ['.'] ++ (c :: rest).takeWhile Char.isDigit)
        ((c :: rest).dropWhile Char.isDigit) := settled_amid (by simp) (by simp)
  rw [List.takeWhile_cons_of_pos hc, List.dropWhile_cons_of_pos hc, List.append_assoc,
    List.singleton_append] at hsettled
  have hend := reaches_of_finish_settled (congrArg finish hsettled)
  exact hend.trans (reaches_numeral (.fraction hne htext (List.cons_ne_nil _ _) hpart))

private theorem reaches_whole (hc : c.isDigit = true) :
    (s.amid .whole [c] rest).Reaches
      (s.after (Segment.numeral c rest).1 (Segment.numeral c rest).2) := by
  have hwhole : ∀ d ∈ c :: rest.takeWhile Char.isDigit, d.isDigit = true :=
    List.forall_mem_cons.mpr ⟨hc, mem_takeWhile⟩
  have hne : c :: rest.takeWhile Char.isDigit ≠ [] := List.cons_ne_nil _ _
  have hsettled : (s.amid .whole [c] rest).settled =
      s.amid .whole (c :: rest.takeWhile Char.isDigit) (rest.dropWhile Char.isDigit) :=
    settled_amid (by simp) (by simp)
  have hrun := reaches_of_finish_settled (congrArg finish hsettled)
  unfold Segment.numeral
  generalize c :: rest.takeWhile Char.isDigit = whole at hwhole hne hrun
  have hinteger : ∀ more, (s.amid .numeral whole more).Reaches
      (s.after (.lexeme .number whole) more) :=
    fun more => reaches_numeral (.integer hne hwhole)
  split
  · rename_i digit more hmore
    rw [hmore] at hrun
    split
    · rename_i hdigit
      exact hrun.trans (point_of_isDigit hdigit ▸ reaches_fraction hne hwhole hdigit)
    · rename_i hdigit
      have hpoint : (s.amid .whole whole ('.' :: digit :: more)).point = _ :=
        point_of_not_isDigit (by simpa using hdigit)
      exact hrun.trans (hpoint ▸ hinteger _)
  · rename_i hno
    have hpoint : (s.amid .whole whole (rest.dropWhile Char.isDigit)).point = _ :=
      point_of_not_isDigit fun d more hd => absurd hd (hno d more)
    exact hrun.trans (hpoint ▸ hinteger _)

section Strings
variable {text : List Char}

/-- A string's value is what stands between its quotes. -/
private theorem literal?_quoted :
    literal? .string ('"' :: text ++ ['"']) = some (.string (String.ofList text)) := by
  rw [literal?, List.cons_append, List.tail_cons, List.dropLast_concat]

theorem sliceFrom?_quote :
    sliceFrom? (String.ofList ('"' :: text)) 1 = some (String.ofList text) := by
  have htext : String.ofList ('"' :: text) = "\"" ++ String.ofList text := by
    rw [← String.toList_inj]
    simp
  rw [htext]
  exact sliceFrom?_append "\"" _

private theorem finish_unclosed :
    (amid { s with line := s.line + newlines ('"' :: text) } .string ('"' :: text) []).finish =
      some (s.after (.unclosed ('"' :: text)) []) := by
  simp [amid, finish, closeString, report, clear, after, Segment.text, Segment.token?,
    Segment.error?]

private theorem finish_closed :
    (amid { s with line := s.line + newlines ('"' :: text) } .string ('"' :: text)
      ('"' :: rest)).finish = some (s.after (.lexeme .string ('"' :: text ++ ['"'])) rest) := by
  have hline : newlines ('"' :: text ++ ['"']) = newlines ('"' :: text) := newlines_append _ _
  have hbuffer : (String.ofList ('"' :: text)).push '"' = String.ofList ('"' :: text ++ ['"']) := by
    rw [String.push_eq_append, String.ofList_append]
    rfl
  rw [after_lexeme literal?_quoted, hline, ← hbuffer, finish]
  simp only [amid, closeString, sliceFrom?_quote]
  rfl

end Strings

private theorem reaches_quoted :
    (s.amid .string ['"'] rest).Reaches
      (s.after (Segment.quoted rest).1 (Segment.quoted rest).2) := by
  apply reaches_of_finish_settled
  have hsettled : (s.amid .string ['"'] rest).settled =
      amid { s with line := s.line + newlines ('"' :: rest.takeWhile (· ≠ '"')) } .string
        ('"' :: rest.takeWhile (· ≠ '"')) (rest.dropWhile (· ≠ '"')) := by
    unfold settled absorb amid
    congr 1
    exact (if_neg (by simp)).trans String.ofList_append.symm
  rw [hsettled, Segment.quoted]
  split
  · rename_i hrest
    rw [hrest]
    exact finish_unclosed
  · rename_i quote more hrest
    have hquote : decide (quote ≠ '"') = false :=
      mem_head?_dropWhile quote (Option.mem_def.mpr (congrArg List.head? hrest))
    obtain rfl : quote = '"' := by simpa using hquote
    rw [hrest]
    exact finish_closed

private theorem reaches_comment :
    (s.amid .comment ['/', '/'] rest).Reaches
      (s.after (.comment ('/' :: '/' :: rest.takeWhile (· ≠ '\n')))
        (rest.dropWhile (· ≠ '\n'))) := by
  have hsettled : (s.amid .comment ['/', '/'] rest).settled =
      s.amid .comment ['/', '/'] (rest.dropWhile (· ≠ '\n')) := rfl
  have hline : newlines ('/' :: '/' :: rest.takeWhile (· ≠ '\n')) = 0 := by
    refine List.count_eq_zero.mpr fun hmem => ?_
    simpa using mem_takeWhile _ (List.mem_of_ne_of_mem (by decide)
      (List.mem_of_ne_of_mem (by decide) hmem))
  apply reaches_of_finish_settled
  rw [hsettled, after, Segment.text, hline]
  simp [amid, finish, clear, Segment.token?, Segment.error?]

section Symbols
variable {single : Symbol}

/-- A symbol of two characters is what the symbol of the first may go on to. -/
private theorem continuation?_of_spelling {pair : Symbol} {second : Char}
    (h : pair.spelling = [c, second]) :
    ∃ single, Symbol.ofSpelling? [c] = some single ∧
      continuation? single = some (second, .complete (.symbol pair)) := by
  cases pair <;> cases h
  case bangEqual => exact ⟨.bang, by decide, rfl⟩
  case equalEqual => exact ⟨.equal, by decide, rfl⟩
  case lessEqual => exact ⟨.less, by decide, rfl⟩
  case greaterEqual => exact ⟨.greater, by decide, rfl⟩

/-- Every way that a symbol may go on is a longer symbol or a comment. -/
theorem continuation?_cases {second : Char} (h : continuation? single = some (second, phase)) :
    (∃ pair : Symbol, phase = .complete (.symbol pair) ∧
        pair.spelling = single.spelling ++ [second]) ∨
      single = .slash ∧ second = '/' ∧ phase = .comment := by
  cases single <;> cases h
  case slash => exact .inr ⟨rfl, rfl, rfl⟩
  all_goals exact .inl ⟨_, rfl, rfl⟩

private theorem isBlank_of_mem_spelling (single : Symbol) :
    ∀ c ∈ single.spelling, isBlank c = false := by
  cases single <;> simp [Symbol.spelling, isBlank]

/-- A symbol that does not go on is complete. -/
private theorem reaches_single (hc : Symbol.ofSpelling? [c] = some single) :
    (s.amid (.complete (.symbol single)) [c] rest).Reaches (s.after (Segment.single c) rest) := by
  have hspelling := Symbol.spelling_of_ofSpelling? hc
  rw [Segment.single, hc]
  exact reaches_complete rfl (hspelling ▸ isBlank_of_mem_spelling single)

private theorem symbol_next {second : Char} (h : continuation? single = some (second, next)) :
    (s.amid phase text (second :: rest)).symbol single = s.amid next (text ++ [second]) rest := by
  rw [symbol, h]
  exact (if_pos rfl).trans take_amid

private theorem symbol_alone
    (h : ∀ second ∈ rest.head?, ∀ next, continuation? single ≠ some (second, next)) :
    (s.amid phase text rest).symbol single = s.amid (.complete (.symbol single)) text rest := by
  rw [symbol]
  split
  · rename_i second next c more hnext hrest
    obtain rfl : rest = c :: more := hrest
    refine if_neg ?_
    rintro rfl
    exact h c rfl next hnext
  · rfl

private theorem reaches_symbol (hc : Symbol.ofSpelling? [c] = some single)
    (hslash : ¬ (c = '/' ∧ rest.head? = some '/')) :
    ((s.amid (.judging c) [c] rest).symbol single).Reaches
      (s.after (Segment.symbol c rest).1 (Segment.symbol c rest).2) := by
  have hspelling := Symbol.spelling_of_ofSpelling? hc
  cases rest with
  | nil =>
    rw [symbol_alone (by simp)]
    exact reaches_single hc
  | cons second more =>
    rw [Segment.symbol]
    split
    · rename_i pair hpair
      have htext := Symbol.spelling_of_ofSpelling? hpair
      obtain ⟨first, hfirst, hnext⟩ := continuation?_of_spelling htext
      obtain rfl : single = first := Option.some.inj (hc.symm.trans hfirst)
      have hline : ∀ d ∈ [c, second], isBlank d = false := htext ▸ isBlank_of_mem_spelling pair
      rw [symbol_next hnext]
      exact reaches_complete rfl hline
    · rename_i hnone
      rw [symbol_alone]
      · exact reaches_single hc
      · rintro d hd next hnext
        obtain rfl : second = d := Option.some.inj hd
        rcases continuation?_cases hnext with ⟨pair, -, hpair⟩ | ⟨rfl, rfl, -⟩
        · rw [hspelling] at hpair
          rw [← List.singleton_append, ← hpair, Symbol.ofSpelling?_spelling] at hnone
          cases hnone
        · cases hspelling
          exact hslash ⟨rfl, rfl⟩

/-- What starts no symbol is stray. -/
private theorem symbol_eq_stray (hc : Symbol.ofSpelling? [c] = none) :
    Segment.symbol c rest = (.stray c, rest) := by
  have hsingle : Segment.single c = .stray c := by rw [Segment.single, hc]
  cases rest with
  | nil => rw [Segment.symbol, hsingle]
  | cons second more =>
    rw [Segment.symbol]
    split
    · rename_i pair hpair
      obtain ⟨first, hfirst, -⟩ :=
        continuation?_of_spelling (Symbol.spelling_of_ofSpelling? hpair)
      rw [hc] at hfirst
      cases hfirst
    · rw [hsingle]

private theorem reaches_judged :
    ((s.amid (.judging c) [c] rest).judge c).Reaches
      (s.after (Segment.next c rest).1 (Segment.next c rest).2) := by
  unfold judge Segment.next
  by_cases hb : isBlank c = true
  · rw [if_pos hb, if_pos hb]
    have hblank : s.after (.blank c) rest =
        ⟨.between, rest, "", s.line + newlines [c], s.tokens, s.errors⟩ := by
      simp [after, Segment.text, Segment.token?, Segment.error?]
    rw [hblank]
    exact .refl
  rw [if_neg hb, if_neg hb]
  split
  · rename_i hquote
    subst hquote
    exact reaches_quoted
  split
  · rename_i hdigit
    exact reaches_whole hdigit
  split
  · rename_i hname
    exact reaches_word hname
  split
  · rename_i single hc
    split
    · rename_i hslash
      obtain ⟨rfl, hhead⟩ := hslash
      obtain ⟨more, rfl⟩ := List.head?_eq_some_iff.mp hhead
      cases hc
      exact reaches_comment
    · rename_i hslash
      exact reaches_symbol hc hslash
  · rename_i hnone
    have hslash : ¬ (c = '/' ∧ rest.head? = some '/') := by
      rintro ⟨rfl, -⟩
      cases hnone
    have hline : newlines [c] = 0 := newlines_eq_zero (by simpa using hb)
    have hstray : s.after (.stray c) rest =
        (s.amid (.judging c) [c] rest).report .unexpectedCharacter := by
      simp [after, report, clear, amid, Segment.text, Segment.token?, Segment.error?, hline]
    rw [if_neg hslash, symbol_eq_stray hnone, hstray]
    exact .refl

end Symbols

/-- Between two tokens a scan goes on to the next segment of its source. -/
theorem reaches_next {cs : List Char} (hphase : s.phase = .between) (hbuffer : s.buffer = "")
    (hunread : s.unread = c :: cs) :
    s.Reaches (s.after (Segment.next c cs).1 (Segment.next c cs).2) := by
  have htake : s.Steps (s.amid (.judging c) [c] cs) := by
    obtain ⟨phase, unread, buffer, line, tokens, errors⟩ := s
    cases hphase
    cases hbuffer
    cases hunread
    rfl
  have hjudge : (s.amid (.judging c) [c] cs).Reaches ((s.amid (.judging c) [c] cs).judge c) :=
    reaches_of_finish rfl rfl
  exact .head htake (hjudge.trans reaches_judged)

end Segments

/-- The scan that has dealt with the rest of its source. -/
def atEnd (s : Scanning) : Scanning :=
  ⟨.between, [], "", s.line + newlines s.unread,
    s.tokens ++ lexed s.line s.unread, s.errors ++ faults s.line s.unread⟩

private theorem atEnd_of_unread_nil {s : Scanning} (hphase : s.phase = .between)
    (hbuffer : s.buffer = "") (hunread : s.unread = []) : s.atEnd = s := by
  obtain ⟨phase, unread, buffer, line, tokens, errors⟩ := s
  cases hphase
  cases hbuffer
  cases hunread
  simp [atEnd, lexed_nil, faults_nil, newlines]

private theorem atEnd_after {s : Scanning} {c : Char} {cs : List Char}
    (hunread : s.unread = c :: cs) :
    (s.after (Segment.next c cs).1 (Segment.next c cs).2).atEnd = s.atEnd := by
  have hlines : newlines (c :: cs) =
      newlines (Segment.next c cs).1.text + newlines (Segment.next c cs).2 := by
    rw [← newlines_append, Segment.next_text]
  unfold atEnd after lexed faults
  simp only [hunread, segments_cons, placed, hlines, List.filterMap_eq_flatMap_toList,
    List.flatMap_cons, List.append_assoc, Nat.add_assoc]

/-- A scan between two tokens goes on to the end of its source. -/
theorem reaches_atEnd {s : Scanning} (hphase : s.phase = .between) (hbuffer : s.buffer = "") :
    s.Reaches s.atEnd := by
  generalize hunread : s.unread = text
  -- each segment is one pass, and the rest of the source has its own end
  fun_induction segments text generalizing s with
  | case1 =>
    rw [atEnd_of_unread_nil hphase hbuffer hunread]
    exact .refl
  | case2 c cs ih =>
    have hrest := ih (s := s.after (Segment.next c cs).1 (Segment.next c cs).2) rfl rfl rfl
    rw [atEnd_after hunread] at hrest
    exact (reaches_next hphase hbuffer hunread).trans hrest

end Scanning

/-- Scanning step by step ends, with what the segments of the source give. -/
theorem start_reaches_scan (source : String) :
    (Scanning.start source).Reaches (Scanning.start source).atEnd ∧
      (Scanning.start source).atEnd.step = none ∧
      (Scanning.start source).atEnd.found = scan source :=
  ⟨Scanning.reaches_atEnd rfl rfl, rfl, rfl⟩

end BlockScript.Source
