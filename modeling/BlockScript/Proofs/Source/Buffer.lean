import BlockScript.Proofs.Source.Scanning
import BlockScript.Proofs.Source.Spelling

/-!
What the buffer of a scan holds. It is empty between two tokens, and in a token it holds all that
was read since. Hence each phase finds in it what it needs: a string can be sliced behind its
opening quote, and a number can be read.
-/
namespace BlockScript.Source

/-- What is in the buffer in each phase, before what is unread. A point that was taken waits for its
digit. -/
inductive Phase.Holds : Phase → List Char → List Char → Prop where
  | between {unread : List Char} : Holds .between [] unread
  | judging {c : Char} {unread : List Char} : Holds (.judging c) [c] unread
  | comment {unread : List Char} : Holds .comment ['/', '/'] unread
  | string {text unread : List Char} : '"' ∉ text → Holds .string ('"' :: text) unread
  | whole {digits unread : List Char} :
      digits ≠ [] → (∀ c ∈ digits, c.isDigit = true) → Holds .whole digits unread
  | fraction {digits part unread : List Char} :
      digits ≠ [] → (∀ c ∈ digits, c.isDigit = true) → (∀ c ∈ part, c.isDigit = true) →
      (part = [] → ∃ c ∈ unread.head?, c.isDigit = true) →
      Holds .fraction (digits ++ '.' :: part) unread
  | numeral {text unread : List Char} : Lexeme .number text → Holds .numeral text unread
  | word {first : Char} {rest unread : List Char} :
      isNameStart first = true → (∀ c ∈ rest, isNamePart c = true) →
      Holds .word (first :: rest) unread
  | complete {kind : TokenKind} {text unread : List Char} :
      Lexeme kind text → Holds (.complete kind) text unread

namespace Phase.Holds
variable {phase : Phase} {text rest : List Char} {c : Char}

/-- A phase that goes on still holds what it should. -/
private theorem absorb (h : phase.Holds text (c :: rest)) (hc : phase.takes c = true) :
    phase.Holds (if phase = .comment then text else text ++ [c]) rest := by
  have hlast {p : Char → Bool} {run : List Char} (hrun : ∀ d ∈ run, p d = true)
      (hp : p c = true) : ∀ d ∈ run ++ [c], p d = true :=
    List.forall_mem_append.mpr ⟨hrun, by simpa using hp⟩
  cases h with
  | between | judging | numeral | complete => cases hc
  | comment => exact .comment
  | string hno =>
    have hquote : c ≠ '"' := by simpa [Phase.takes] using hc
    exact .string (by simpa [hno] using hquote.symm)
  | whole hne hd => exact .whole (by simp) (hlast hd hc)
  | @fraction digits part _ hne hd hp _ =>
    rw [if_neg (by simp), List.append_assoc, List.cons_append]
    exact .fraction hne hd (hlast hp hc) (by simp)
  | word hf hr => exact .word hf (hlast hr hc)

end Phase.Holds

namespace Scanning

/-- A scan whose buffer holds what its phase needs, and that has met no number it could not read. -/
structure Disciplined (s : Scanning) : Prop where
  holds : s.phase.Holds s.buffer.toList s.unread
  readable : ∀ e ∈ s.errors, e.fault ≠ .malformedNumber

variable {s t : Scanning} {phase : Phase} {single : Symbol} {c : Char} {text rest : List Char}

section Operations
variable (hs : ∀ e ∈ s.errors, e.fault ≠ .malformedNumber)
include hs

private theorem disciplined_amid (h : phase.Holds text rest) :
    (s.amid phase text rest).Disciplined :=
  ⟨by rw [amid, String.toList_ofList]; exact h, hs⟩

private theorem readable_append {fault : LexicalFault} {line : Nat}
    (hfault : fault ≠ .malformedNumber) :
    ∀ e ∈ s.errors ++ [⟨fault, line⟩], e.fault ≠ .malformedNumber :=
  List.forall_mem_append.mpr ⟨hs, by simpa using hfault⟩

private theorem disciplined_symbol (hc : single.spelling = [c]) :
    ((s.amid phase [c] rest).symbol single).Disciplined := by
  have halone : (s.amid (.complete (.symbol single)) [c] rest).Disciplined :=
    disciplined_amid hs (.complete (hc ▸ .symbol single))
  rw [symbol]
  split
  · rename_i second next d more hnext hrest
    obtain rfl : rest = d :: more := hrest
    split
    · rename_i hd
      subst hd
      rw [take_amid]
      rcases continuation?_cases hnext with ⟨pair, rfl, hpair⟩ | ⟨rfl, rfl, rfl⟩
      · rw [hc] at hpair
        exact disciplined_amid hs (.complete (hpair ▸ .symbol pair))
      · cases hc
        exact disciplined_amid hs .comment
    · exact halone
  · exact halone

private theorem disciplined_judge : ((s.amid (.judging c) [c] rest).judge c).Disciplined := by
  unfold judge
  split
  · exact ⟨.between, hs⟩
  split
  · rename_i hquote
    subst hquote
    exact disciplined_amid hs (.string List.not_mem_nil)
  split
  · rename_i hdigit
    exact disciplined_amid hs (.whole (List.cons_ne_nil _ _) (by simpa using hdigit))
  split
  · rename_i hname
    exact disciplined_amid hs (.word hname (by simp))
  split
  · rename_i single hc
    exact disciplined_symbol hs (Symbol.spelling_of_ofSpelling? hc)
  · exact ⟨.between, readable_append hs (by simp)⟩

private theorem disciplined_closeString :
    (s.amid .string ('"' :: text) rest).closeString.Disciplined := by
  cases rest with
  | nil => exact ⟨.between, readable_append hs (by simp)⟩
  | cons quote more =>
    rw [closeString]
    simp only [amid, sliceFrom?_quote]
    exact ⟨.between, hs⟩

private theorem disciplined_point (hne : text ≠ []) (hd : ∀ d ∈ text, d.isDigit = true) :
    (s.amid .whole text rest).point.Disciplined := by
  have hnumeral : (s.amid .numeral text rest).Disciplined :=
    disciplined_amid hs (.numeral (.integer hne hd))
  rw [point]
  split
  · rename_i digit more hrest
    obtain rfl : rest = '.' :: digit :: more := hrest
    split
    · rename_i hdigit
      rw [take_amid]
      exact disciplined_amid hs (.fraction hne hd (by simp) fun _ => ⟨digit, rfl, hdigit⟩)
    · exact hnumeral
  · exact hnumeral

private theorem disciplined_closeNumeral (h : Lexeme .number text) :
    (s.amid .numeral text rest).closeNumeral.Disciplined := by
  obtain ⟨d, hd⟩ := Option.isSome_iff_exists.mp h.ofChars?_isSome
  rw [closeNumeral, amid, String.toList_ofList, Number.ofChars?, hd]
  exact ⟨.between, hs⟩

/-- A phase that ends leaves the buffer to the next as that needs it. -/
private theorem disciplined_finish (h : phase.Holds text rest)
    (hstop : ∀ c ∈ rest.head?, phase.takes c = false)
    (hstep : (s.amid phase text rest).finish = some t) : t.Disciplined := by
  cases h with
  | between =>
    cases rest with
    | nil => cases hstep
    | cons c more =>
      obtain rfl := Option.some.inj hstep
      rw [take_amid]
      exact disciplined_amid hs .judging
  | judging =>
    obtain rfl := Option.some.inj hstep
    exact disciplined_judge hs
  | comment =>
    obtain rfl := Option.some.inj hstep
    exact ⟨.between, hs⟩
  | string hno =>
    obtain rfl := Option.some.inj hstep
    exact disciplined_closeString hs
  | whole hne hd =>
    obtain rfl := Option.some.inj hstep
    exact disciplined_point hs hne hd
  | @fraction digits part _ hne hd hp hwait =>
    -- the digit that a point waits for would have been taken
    have hpart : part ≠ [] := by
      intro hnil
      obtain ⟨c, hc, hdigit⟩ := hwait hnil
      exact absurd ((hstop c hc).symm.trans hdigit) Bool.false_ne_true
    obtain rfl := Option.some.inj hstep
    exact disciplined_amid hs (.numeral (.fraction hne hd hpart hp))
  | numeral hl =>
    obtain rfl := Option.some.inj hstep
    exact disciplined_closeNumeral hs hl
  | word hf hr =>
    obtain rfl := Option.some.inj (finish_word.symm.trans hstep)
    exact disciplined_amid hs (.complete (lexeme_wordKind hf hr))
  | complete hl =>
    obtain rfl := Option.some.inj hstep
    exact ⟨.between, hs⟩

end Operations

private theorem toList_buffer_absorb : (s.absorb text rest).buffer.toList =
    if s.phase = .comment then s.buffer.toList else s.buffer.toList ++ text := by
  rw [absorb]
  split
  · rfl
  · rw [String.toList_append, String.toList_ofList]

/-- A step keeps the discipline. -/
theorem Disciplined.step (h : s.Disciplined) (hstep : s.Steps t) : t.Disciplined := by
  rcases step_cases hstep with ⟨c, rest, hunread, hc, rfl⟩ | ⟨hstop, hfinish⟩
  · have hholds : s.phase.Holds s.buffer.toList (c :: rest) := hunread ▸ h.holds
    exact ⟨by rw [toList_buffer_absorb]; exact hholds.absorb hc, h.readable⟩
  · have hself : s.amid s.phase s.buffer.toList s.unread = s := by rw [amid, String.ofList_toList]
    exact disciplined_finish h.readable h.holds hstop (hself.symm ▸ hfinish)

theorem disciplined_of_reaches {source : String} (h : (start source).Reaches s) :
    s.Disciplined := by
  induction h with
  | refl => exact ⟨.between, by simp [start]⟩
  | tail _ hstep ih => exact ih.step hstep

/-- What is in the buffer and what is unread. -/
def pending (s : Scanning) : List Char := s.buffer.toList ++ s.unread

private theorem pending_take : (s.take c rest phase).pending = s.buffer.toList ++ c :: rest := by
  rw [pending, take, String.toList_push, List.append_assoc]
  rfl

private theorem pending_symbol : (s.symbol single).pending = s.pending := by
  rw [symbol]
  split
  · rename_i hunread
    split
    · rw [pending_take, pending, hunread]
    · rfl
  · rfl

private theorem pending_point : s.point.pending = s.pending := by
  rw [point]
  split
  · rename_i hunread
    split
    · rw [pending_take, pending, hunread]
    · rfl
  · rfl

private theorem pending_judge : (s.judge c).phase = .between ∨ (s.judge c).pending = s.pending := by
  unfold judge
  split
  · exact .inl rfl
  split
  · exact .inr rfl
  split
  · exact .inr rfl
  split
  · exact .inr rfl
  split
  · exact .inr pending_symbol
  · exact .inl rfl

private theorem pending_closeString :
    s.closeString.phase = .between ∨ s.closeString.pending = s.pending := by
  rw [closeString]
  split
  · exact .inl rfl
  split
  · exact .inl rfl
  · exact .inr rfl

/-- What ends a phase either drops the buffer or moves text to it from the source. -/
private theorem pending_finish (h : s.finish = some t) :
    t.phase = .between ∨ s.phase ≠ .comment ∧ t.pending = s.pending := by
  obtain ⟨phase, unread, buffer, line, tokens, errors⟩ := s
  cases phase with
  | between =>
    cases unread with
    | nil => cases h
    | cons c rest =>
      cases h
      exact .inr ⟨by simp, pending_take⟩
  | judging first =>
    cases h
    exact pending_judge.imp_right (⟨by simp, ·⟩)
  | comment =>
    cases h
    exact .inl rfl
  | string =>
    cases h
    exact pending_closeString.imp_right (⟨by simp, ·⟩)
  | whole =>
    cases h
    exact .inr ⟨by simp, pending_point⟩
  | fraction | word =>
    cases h
    exact .inr ⟨by simp, rfl⟩
  | numeral =>
    cases h
    unfold closeNumeral
    split
    · exact .inl rfl
    · exact .inl rfl
  | complete =>
    cases h
    exact .inl rfl
  | broken => cases h

private theorem pending_step (h : s.Steps t) :
    t.phase = .between ∨ t.phase = .comment ∨ s.phase ≠ .comment ∧ t.pending = s.pending := by
  rcases step_cases h with ⟨c, rest, hunread, -, rfl⟩ | ⟨-, hfinish⟩
  · by_cases hcomment : s.phase = .comment
    · exact .inr (.inl hcomment)
    · refine .inr (.inr ⟨hcomment, ?_⟩)
      rw [pending, toList_buffer_absorb, if_neg hcomment, pending, hunread, List.append_assoc]
      rfl
  · exact (pending_finish hfinish).imp_right .inr

/-- The scans of one pass: from the first character behind a scan between two tokens on, up to the
next such scan. -/
inductive Pass (origin : Scanning) : Scanning → Prop where
  | begin {s : Scanning} : origin.phase = .between → origin.Steps s → Pass origin s
  | next {s t : Scanning} : Pass origin s → s.phase ≠ .between → s.Steps t → Pass origin t

section Passes
variable {origin : Scanning}

private theorem Pass.origin_between (h : origin.Pass s) : origin.phase = .between := by
  induction h with
  | begin horigin => exact horigin
  | next _ _ _ ih => exact ih

/-- In a pass the buffer has all that was read since its start, unless that is a comment. -/
private theorem Pass.pending_eq (h : origin.Pass s) (hbetween : s.phase ≠ .between)
    (hcomment : s.phase ≠ .comment) : s.pending = origin.pending := by
  induction h with
  | begin _ hstep =>
    obtain ⟨-, heq⟩ := ((pending_step hstep).resolve_left hbetween).resolve_left hcomment
    exact heq
  | next _ hinside hstep ih =>
    obtain ⟨hno, heq⟩ := ((pending_step hstep).resolve_left hbetween).resolve_left hcomment
    exact heq.trans (ih hinside hno)

/-- A scan that is not between two tokens is in a pass. -/
theorem exists_pass (hs : s.phase = .between) (h : s.Reaches t) (ht : t.phase ≠ .between) :
    ∃ origin, s.Reaches origin ∧ origin.Pass t := by
  induction h with
  | refl => exact absurd hs ht
  | @tail u v hreach hstep ih =>
    by_cases hu : u.phase = .between
    · exact ⟨u, hreach, .begin hu hstep⟩
    · obtain ⟨origin, horigin, hpass⟩ := ih hu
      exact ⟨origin, horigin, hpass.next hu hstep⟩

/-- There is one way to scan, so what is reached goes on to where the scan ends. -/
theorem Reaches.to_end (hs : s.Reaches t) {final : Scanning} (h : s.Reaches final)
    (hfinal : final.step = none) : t.Reaches final := by
  have hunique : Relator.RightUnique Steps := fun _ _ _ h h' => Option.some.inj (h.symm.trans h')
  rcases Relation.ReflTransGen.total_of_right_unique hunique hs h with hto | hback
  · exact hto
  · rcases Relation.ReflTransGen.cases_head hback with rfl | ⟨u, hstep, -⟩
    · exact .refl
    · cases hfinal.symm.trans hstep

end Passes

namespace Disciplined

private theorem buffer_eq_empty (h : s.Disciplined) (hs : s.phase = .between) : s.buffer = "" := by
  have hholds := h.holds
  rw [hs] at hholds
  generalize htext : s.buffer.toList = text at hholds
  cases hholds
  rw [← String.ofList_toList (s := s.buffer), htext]

/-- The first byte behind the opening quote of a string starts its value. -/
theorem exists_slice (h : s.Disciplined) (hs : s.phase = .string) :
    ∃ value, s.buffer = "\"" ++ value ∧ sliceFrom? s.buffer 1 = some value := by
  have hholds := h.holds
  rw [hs] at hholds
  generalize htext : s.buffer.toList = text at hholds
  cases hholds with
  | @string value _ _ =>
    have hbuffer : s.buffer = "\"" ++ String.ofList value := by
      rw [← String.toList_inj, htext]
      simp
    exact ⟨String.ofList value, hbuffer, hbuffer ▸ sliceFrom?_append "\"" _⟩

theorem decimal (h : s.Disciplined) (hs : s.phase = .numeral) : Decimal s.buffer.toList := by
  have hholds := h.holds
  rw [hs] at hholds
  cases hholds with
  | numeral hl => exact decimal_iff.mpr hl

theorem not_broken (h : s.Disciplined) : s.phase ≠ .broken := by
  intro hs
  have hholds := h.holds
  rw [hs] at hholds
  cases hholds

theorem message_ne (h : s.Disciplined) :
    ∀ e ∈ s.errors, e.fault.message ≠ "Invalid number." := by
  intro e he hmessage
  refine h.readable e he ?_
  cases hfault : e.fault with
  | malformedNumber => rfl
  | unexpectedCharacter | unterminatedString =>
    rw [hfault] at hmessage
    exact absurd hmessage (by decide)

end Disciplined

end Scanning

/-- A source can be scanned step by step with one buffer, and the steps end with its tokens and
errors. The buffer is empty between two tokens, and in a token it has all that was read of it. So
the slice of a string starts behind its opening quote and never fails, and a number is read from
digits with or without a fraction and never reported. -/
theorem buffer_disciplined (source : String) :
    (∃ final : Scanning, final.step = none ∧ final.found = scan source ∧
      ∀ s, (Scanning.start source).Reaches s → s.Reaches final) ∧
    (∀ s, (Scanning.start source).Reaches s →
      (s.phase = .between → s.buffer = "") ∧
      (s.phase ≠ .between → ∃ origin, (Scanning.start source).Reaches origin ∧ origin.Pass s) ∧
      (∀ origin, (Scanning.start source).Reaches origin → origin.Pass s →
        s.phase ≠ .between → s.phase ≠ .comment →
        origin.unread = s.buffer.toList ++ s.unread) ∧
      (s.phase = .string →
        ∃ value, s.buffer = "\"" ++ value ∧ sliceFrom? s.buffer 1 = some value) ∧
      (s.phase = .numeral → Decimal s.buffer.toList) ∧
      s.phase ≠ .broken ∧
      ∀ e ∈ s.errors, e.fault.message ≠ "Invalid number.") ∧
    ∀ e ∈ (scan source).errors, e.fault.message ≠ "Invalid number." := by
  obtain ⟨hreach, hend, hfound⟩ := start_reaches_scan source
  refine ⟨⟨_, hend, hfound, fun s hs => hs.to_end hreach hend⟩, ?_, ?_⟩
  · intro s hs
    have hd := Scanning.disciplined_of_reaches hs
    refine ⟨hd.buffer_eq_empty, Scanning.exists_pass rfl hs, ?_, hd.exists_slice, hd.decimal,
      hd.not_broken, hd.message_ne⟩
    intro origin horigin hpass hbetween hcomment
    have hbuffer := (Scanning.disciplined_of_reaches horigin).buffer_eq_empty hpass.origin_between
    have hpending := hpass.pending_eq hbetween hcomment
    rw [Scanning.pending, Scanning.pending, hbuffer] at hpending
    exact hpending.symm
  · rw [← hfound]
    exact (Scanning.disciplined_of_reaches hreach).message_ne

/-- A string is sliced before a character of two bytes, and the number behind it is read without the
string. -/
theorem buffer_disciplined_accent :
    ∃ s t : Scanning, (Scanning.start "\"é\"1.5").Reaches s ∧ s.Reaches t ∧
      s.phase = .string ∧ s.unread = ['"', '1', '.', '5'] ∧
      (∃ value, s.buffer = "\"" ++ value ∧ sliceFrom? s.buffer 1 = some value) ∧
      t.phase = .numeral ∧ t.buffer = "1.5" ∧ Decimal t.buffer.toList := by
  have hs : (Scanning.start "\"é\"1.5").Reaches ⟨.string, ['"', '1', '.', '5'], "\"é", 1, [], []⟩ :=
    .head rfl (.head rfl (.head rfl .refl))
  have hslice : sliceFrom? "\"é" 1 = some "é" := sliceFrom?_append "\"" "é"
  have hclose : Scanning.Steps ⟨.string, ['"', '1', '.', '5'], "\"é", 1, [], []⟩
      ⟨.between, ['1', '.', '5'], "", 1, [⟨.string, "\"é\"", .string "é", 1⟩], []⟩ := by
    change some (Scanning.closeString _) = _
    rw [Scanning.closeString]
    simp only [hslice]
    rfl
  have ht : Scanning.Reaches ⟨.string, ['"', '1', '.', '5'], "\"é", 1, [], []⟩
      ⟨.numeral, [], "1.5", 1, [⟨.string, "\"é\"", .string "é", 1⟩], []⟩ :=
    .head hclose (.head rfl (.head rfl (.head rfl (.head rfl (.head rfl .refl)))))
  have hstring := ((buffer_disciplined _).2.1 _ hs).2.2.2.1 rfl
  have hnumeral := ((buffer_disciplined _).2.1 _ (hs.trans ht)).2.2.2.2.1 rfl
  exact ⟨_, _, hs, ht, rfl, rfl, hstring, rfl, rfl, hnumeral⟩

end BlockScript.Source
