import BlockScript.Diagnostic
import BlockScript.Program.PrefixForm

/-!
Parsers over token lists. A parser gives a result or the error that stopped it, and beside it the
errors it reported on the way and the tokens it left.
-/
namespace BlockScript.Program

structure Reply (α : Type) where
  reported : List SyntaxError
  rest : List Token
  outcome : Except SyntaxError α

/-- A parser knows the token that stands for the end when no token is left to blame. -/
def Parser (α : Type) : Type := Token → List Token → Reply α

namespace Parser
variable {α β : Type}

def succeed (a : α) : Parser α := fun _ tokens => ⟨[], tokens, .ok a⟩

/-- Errors are kept in the order of their discovery. -/
def andThen (p : Parser α) (f : α → Parser β) : Parser β := fun last tokens =>
  let first := p last tokens
  match first.outcome with
  | .error e => ⟨first.reported, first.rest, .error e⟩
  | .ok a =>
    let second := f a last first.rest
    ⟨first.reported ++ second.reported, second.rest, second.outcome⟩

instance : Monad Parser where
  pure := succeed
  bind := andThen

/-- Stops with a fault at the next token. -/
def fail (fault : SyntaxFault) : Parser α := fun last tokens =>
  ⟨[], tokens, .error ⟨fault, tokens.head?.getD last⟩⟩

/-- Reports an error and goes on. -/
def report (e : SyntaxError) : Parser Unit := fun _ tokens => ⟨[e], tokens, .ok ()⟩

/-- Takes the next token if it is of a class. -/
def accept? (classify : Token → Option α) : Parser (Option α) := fun _ tokens =>
  match tokens with
  | [] => ⟨[], [], .ok none⟩
  | t :: rest =>
    match classify t with
    | some a => ⟨[], rest, .ok (some a)⟩
    | none => ⟨[], t :: rest, .ok none⟩

/-- Takes the next token if its kind is wanted. -/
def take? (wanted : TokenKind → Bool) : Parser (Option Token) :=
  accept? fun t => if wanted t.kind then some t else none

/-- Takes the next token if it is of one kind, and says whether it did. -/
def skip (kind : TokenKind) : Parser Bool := do
  return (← take? (· = kind)).isSome

/-- Takes a token of one kind, which has to be next. -/
def expect (kind : TokenKind) (fault : SyntaxFault) : Parser Token := do
  match ← take? (· = kind) with
  | some t => return t
  | none => fail fault

/-- Whether the program ends here or a stopping token is next. -/
def stopsAt (stop : TokenKind → Bool) : Parser Bool := fun _ tokens =>
  ⟨[], tokens, .ok (tokens.head?.all fun t => t.kind = .endOfInput || stop t.kind)⟩

/-- The number of tokens left. -/
def remaining : Parser Nat := fun _ tokens => ⟨[], tokens, .ok tokens.length⟩

section Replies
variable {p q : Parser α} {f : α → Parser β} {last t : Token} {tokens rest : List Token}
  {errors : List SyntaxError} {a : α} {b : β} {kind : TokenKind}

/-- A sequence succeeds where both parts do, and reports what they report. -/
theorem bind_eq_ok_iff :
    (p >>= f) last tokens = ⟨errors, rest, .ok b⟩ ↔
      ∃ before middle a after, p last tokens = ⟨before, middle, .ok a⟩ ∧
        f a last middle = ⟨after, rest, .ok b⟩ ∧ errors = before ++ after := by
  change andThen p f last tokens = _ ↔ _
  unfold andThen
  rcases p last tokens with ⟨before, middle, e | a⟩
  · simp
  · rcases hf : f a last middle with ⟨after, rest', result⟩
    simp only [Reply.mk.injEq, hf]
    constructor
    · rintro ⟨rfl, rfl, rfl⟩
      exact ⟨before, middle, a, after, ⟨rfl, rfl, rfl⟩, hf, rfl⟩
    · rintro ⟨_, _, _, _, ⟨rfl, rfl, ha⟩, hf', rfl⟩
      cases ha
      cases hf.symm.trans hf'
      exact ⟨rfl, rfl, rfl⟩

theorem accept?_eq_some_iff {classify : Token → Option α} :
    accept? classify last tokens = ⟨errors, rest, .ok (some a)⟩ ↔
      errors = [] ∧ ∃ t, tokens = t :: rest ∧ classify t = some a := by
  cases tokens with
  | nil => simp [accept?]
  | cons t more =>
    cases h : classify t <;> simp [accept?, h, eq_comm, and_assoc]

theorem accept?_eq_none_iff {classify : Token → Option α} :
    accept? classify last tokens = ⟨errors, rest, .ok none⟩ ↔
      errors = [] ∧ rest = tokens ∧ ∀ t ∈ tokens.head?, classify t = none := by
  cases tokens with
  | nil => simp [accept?, eq_comm]
  | cons t more =>
    cases h : classify t <;> simp [accept?, h, eq_comm]

theorem take?_eq_some_iff {wanted : TokenKind → Bool} :
    take? wanted last tokens = ⟨errors, rest, .ok (some t)⟩ ↔
      errors = [] ∧ tokens = t :: rest ∧ wanted t.kind = true := by
  simp only [take?, accept?_eq_some_iff, Option.ite_none_right_eq_some, Option.some.injEq]
  constructor
  · rintro ⟨he, u, ht, hu, rfl⟩
    exact ⟨he, ht, hu⟩
  · rintro ⟨he, ht, hu⟩
    exact ⟨he, t, ht, hu, rfl⟩

theorem take?_eq_none_iff {wanted : TokenKind → Bool} :
    take? wanted last tokens = ⟨errors, rest, .ok none⟩ ↔
      errors = [] ∧ rest = tokens ∧ ∀ t ∈ tokens.head?, wanted t.kind = false := by
  simp [take?, accept?_eq_none_iff]

theorem skip_eq_true_iff :
    skip kind last tokens = ⟨errors, rest, .ok true⟩ ↔
      errors = [] ∧ ∃ t, tokens = t :: rest ∧ t.kind = kind := by
  unfold skip
  simp only [bind_eq_ok_iff]
  constructor
  · rintro ⟨before, middle, a, after, h, h', rfl⟩
    cases a with
    | none => cases h'
    | some t =>
      obtain ⟨rfl, ht, hk⟩ := take?_eq_some_iff.mp h
      cases h'
      exact ⟨rfl, t, ht, by simpa using hk⟩
  · rintro ⟨rfl, t, ht, hk⟩
    exact ⟨[], rest, some t, [], take?_eq_some_iff.mpr ⟨rfl, ht, by simpa using hk⟩, rfl, rfl⟩

theorem skip_eq_false_iff :
    skip kind last tokens = ⟨errors, rest, .ok false⟩ ↔
      errors = [] ∧ rest = tokens ∧ ∀ t ∈ tokens.head?, t.kind ≠ kind := by
  unfold skip
  simp only [bind_eq_ok_iff]
  constructor
  · rintro ⟨before, middle, a, after, h, h', rfl⟩
    cases a with
    | some t => cases h'
    | none =>
      obtain ⟨rfl, ht, hk⟩ := take?_eq_none_iff.mp h
      cases h'
      exact ⟨rfl, ht, by simpa using hk⟩
  · rintro ⟨rfl, ht, hk⟩
    exact ⟨[], tokens, none, [], take?_eq_none_iff.mpr ⟨rfl, rfl, by simpa using hk⟩, ht ▸ rfl, rfl⟩

theorem expect_eq_ok_iff {fault : SyntaxFault} :
    expect kind fault last tokens = ⟨errors, rest, .ok t⟩ ↔
      errors = [] ∧ tokens = t :: rest ∧ t.kind = kind := by
  unfold expect
  simp only [bind_eq_ok_iff]
  constructor
  · rintro ⟨before, middle, a, after, h, h', rfl⟩
    cases a with
    | none => cases h'
    | some u =>
      obtain ⟨rfl, ht, hk⟩ := take?_eq_some_iff.mp h
      cases h'
      exact ⟨rfl, ht, by simpa using hk⟩
  · rintro ⟨rfl, ht, hk⟩
    exact ⟨[], rest, some t, [], take?_eq_some_iff.mpr ⟨rfl, ht, by simpa using hk⟩, rfl, rfl⟩

theorem map_eq_ok_iff {g : α → β} :
    (g <$> p) last tokens = ⟨errors, rest, .ok b⟩ ↔
      ∃ a, p last tokens = ⟨errors, rest, .ok a⟩ ∧ b = g a := by
  change (p >>= fun a => pure (g a)) last tokens = _ ↔ _
  rw [bind_eq_ok_iff]
  constructor
  · rintro ⟨before, middle, a, after, h, h', rfl⟩
    cases h'
    exact ⟨a, by simpa using h, rfl⟩
  · rintro ⟨a, h, rfl⟩
    exact ⟨errors, rest, a, [], h, rfl, by simp⟩

/-- A part that has to be closed by a token, which leaves no trace in the result. -/
theorem closed_eq_ok_iff {fault : SyntaxFault} {g : α → β} :
    (do let a ← p; let _ ← expect kind fault; return g a : Parser β) last tokens =
        ⟨errors, rest, .ok b⟩ ↔
      ∃ a t, p last tokens = ⟨errors, t :: rest, .ok a⟩ ∧ t.kind = kind ∧ b = g a := by
  rw [bind_eq_ok_iff]
  constructor
  · rintro ⟨before, middle, a, after, h, h', rfl⟩
    obtain ⟨_, _, t, _, ht, hreturn, rfl⟩ := bind_eq_ok_iff.mp h'
    obtain ⟨rfl, rfl, hk⟩ := expect_eq_ok_iff.mp ht
    cases hreturn
    exact ⟨a, t, by simpa using h, hk, rfl⟩
  · rintro ⟨a, t, h, hk, rfl⟩
    refine ⟨errors, t :: rest, a, [], h, ?_, by simp⟩
    exact bind_eq_ok_iff.mpr ⟨[], rest, t, [], expect_eq_ok_iff.mpr ⟨rfl, rfl, hk⟩, rfl, rfl⟩

/-- A branch on the next token, which only the first branch takes. -/
theorem branch_eq_ok_iff :
    (do if ← skip kind then p else q : Parser α) last tokens = ⟨errors, rest, .ok a⟩ ↔
      (∃ t more, tokens = t :: more ∧ t.kind = kind ∧ p last more = ⟨errors, rest, .ok a⟩) ∨
      (∀ t ∈ tokens.head?, t.kind ≠ kind) ∧ q last tokens = ⟨errors, rest, .ok a⟩ := by
  rw [bind_eq_ok_iff]
  constructor
  · rintro ⟨before, middle, taken, after, h, h', rfl⟩
    cases taken with
    | true =>
      obtain ⟨rfl, t, rfl, hk⟩ := skip_eq_true_iff.mp h
      exact .inl ⟨t, middle, rfl, hk, h'⟩
    | false =>
      obtain ⟨rfl, rfl, hk⟩ := skip_eq_false_iff.mp h
      exact .inr ⟨hk, h'⟩
  · rintro (⟨t, more, rfl, hk, h⟩ | ⟨hk, h⟩)
    · exact ⟨[], more, true, errors, skip_eq_true_iff.mpr ⟨rfl, t, rfl, hk⟩, h, rfl⟩
    · exact ⟨[], tokens, false, errors, skip_eq_false_iff.mpr ⟨rfl, rfl, hk⟩, h, rfl⟩

end Replies

end Parser
end BlockScript.Program
