import BlockScript.Proofs.Grammar.Recovery

/-!
Only the tokens before the first end of input count. In front of an end of input a parser does what
it does where its tokens run out, with that token as the one to blame. So neither what follows an
end of input nor whether there is one makes a difference.
-/
namespace BlockScript.Program
open BlockScript.Program.Parser Grammar

variable {α β : Type}

/-- A reply with more tokens behind those it leaves. -/
def Reply.before (r : Reply α) (more : List Token) : Reply α :=
  ⟨r.reported, r.rest ++ more, r.outcome⟩

/-- In front of a token of such a kind the parser does what it does where its tokens run out and
that token stands for the end. -/
def EndsAt (P : TokenKind → Prop) (p : Parser α) : Prop :=
  ∀ (last : Token) {ending : Token} (tokens more : List Token), P ending.kind →
    p last (tokens ++ ending :: more) = (p ending tokens).before (ending :: more)

namespace EndsAt
variable {P P' : TokenKind → Prop} {p q : Parser α} {f : α → Parser β} {kind : TokenKind}
  {fault : SyntaxFault}

theorem mono (h : EndsAt P p) (hP : ∀ kind, P' kind → P kind) : EndsAt P' p :=
  fun last _ tokens more hend => h last tokens more (hP _ hend)

theorem bind (hp : EndsAt P p) (hf : ∀ a, p.Returns a → EndsAt P (f a)) : EndsAt P (p >>= f) := by
  intro last ending tokens more hend
  have hfirst := hp last tokens more hend
  rcases hr : p ending tokens with ⟨errors, rest, e | a⟩ <;> rw [hr] at hfirst
  · rw [bind_of_error hr]
    exact bind_of_error hfirst
  · have hsecond := hf a ⟨ending, tokens, errors, rest, hr⟩ last rest more hend
    rcases hs : f a ending rest with ⟨others, left, outcome⟩
    rw [hs] at hsecond
    rw [bind_of_ok hr hs]
    exact bind_of_ok hfirst hsecond

theorem pure (a : α) : EndsAt P (pure a) := fun _ _ _ _ _ => rfl

theorem report (e : SyntaxError) : EndsAt P (report e) := fun _ _ _ _ _ => rfl

theorem fail : EndsAt P (fail fault : Parser α) := by
  intro last ending tokens more _
  cases tokens <;> rfl

theorem map {g : α → β} (hp : EndsAt P p) : EndsAt P (do let a ← p; return g a) :=
  .bind hp fun _ _ => .pure _

/-- The ending token is of no class that a parser looks for. -/
theorem accept? {classify : Token → Option α} (h : ∀ t : Token, P t.kind → classify t = none) :
    EndsAt P (accept? classify) := by
  intro last ending tokens more hend
  cases tokens with
  | nil => exact accept?_eq_none_iff.mpr ⟨rfl, rfl, by simpa using h ending hend⟩
  | cons t rest =>
    cases ht : classify t <;> simp [Parser.accept?, ht, Reply.before]

theorem take? {wanted : TokenKind → Bool} (h : ∀ kind, P kind → wanted kind = false) :
    EndsAt P (take? wanted) :=
  .accept? fun t ht => by rw [h t.kind ht]; rfl

theorem skip (h : ¬ P kind) : EndsAt P (skip kind) := by
  refine .map (.take? fun other hother => decide_eq_false ?_)
  rintro rfl
  exact h hother

theorem expect (h : ¬ P kind) : EndsAt P (expect kind fault) := by
  refine .bind (.take? fun other hother => decide_eq_false ?_) fun found _ => ?_
  · rintro rfl
    exact h hother
  · cases found with
    | some t => exact .pure t
    | none => exact .fail

/-- A part that a token has to close. -/
theorem closed {g : α → β} (hp : EndsAt P p) (h : ¬ P kind) :
    EndsAt P (do let a ← p; let _ ← Parser.expect kind fault; return g a) :=
  .bind hp fun _ _ => .map (.expect h)

/-- A branch on the next token, which only the first branch takes. -/
theorem branch (h : ¬ P kind) (hp : ∀ t : Token, t.kind = kind → EndsAt P p) (hq : EndsAt P q) :
    EndsAt P (do if ← Parser.skip kind then p else q) := by
  refine .bind (.skip h) fun taken _ => ?_
  cases taken with
  | true => exact hp ⟨kind, "", .nil, 1⟩ rfl
  | false => exact hq

/-- What follows the target of an assignment. -/
theorem assigned {inner : Parser Expr} (hi : EndsAt P inner) (h : ¬ P (.symbol .equal))
    (target : Expr) : EndsAt P (assigned inner target) := by
  refine .bind (.take? fun other hother => decide_eq_false ?_) fun found _ => ?_
  · rintro rfl
    exact h hother
  · cases found with
    | none => exact .pure target
    | some mark =>
      refine .bind hi fun value _ => ?_
      cases target with
      | name token => exact .pure _
      | literal | group | unary | binary | assign => exact .bind (.report _) fun _ _ => .pure _

/-- A loop that may take as many rounds as there are tokens, if more rounds make no difference. -/
theorem of_remaining {bounded : Nat → Parser α} (h : ∀ bound, EndsAt P (bounded bound))
    (heq : ∀ {bound last tokens}, tokens.length ≤ bound →
      bounded bound last tokens = bounded tokens.length last tokens) :
    EndsAt P (do bounded (← remaining)) := by
  intro last ending tokens more hend
  have hbound : tokens.length ≤ (tokens ++ ending :: more).length := by simp
  exact (h _ last tokens more hend).trans (congrArg (Reply.before · _) (heq hbound))

end EndsAt

/-- Parsers of the logic end at every boundary. -/
theorem Reads.endsAt {p : Parser α} {L : α → List Token → List SyntaxError → Prop}
    (h : Reads p L) : EndsAt Boundary p := by
  induction h with
  | pure => exact .pure _
  | fail => exact .fail
  | accept? hclass => exact .accept? hclass
  | bind hp _ ih ih' =>
    refine .bind ih fun a ha => ?_
    obtain ⟨used, marks, hM⟩ := hp.of_returns ha
    exact ih' a used marks hM
  | mono _ _ ih => exact ih
  | assigned _ ih => exact ih.assigned (not_boundary_symbol _) _
  | bounded _ heq ih => exact .of_remaining ih (heq _ _ _)

section Statements
variable {item : Parser (Option Stmt)} {ending : Token}

theorem EndsAt.stopsAt (stop : TokenKind → Bool) : EndsAt (· = .endOfInput) (stopsAt stop) := by
  intro last ending tokens more hend
  cases tokens with
  | nil => simp [Parser.stopsAt, hend, Reply.before]
  | cons t rest => rfl

/-- Recovery stops at an end of input as it stops where the tokens run out. -/
private theorem resume_before_end (hend : ending.kind = .endOfInput) (tokens more : List Token) :
    resume (tokens ++ ending :: more) = resume tokens ++ ending :: more := by
  cases tokens with
  | nil => simp [resume, hend]
  | cons t rest =>
    refine resume_append (List.cons_ne_nil t rest) (.inr (.inr fun next hnext => .inl ?_))
    cases hnext
    exact hend

theorem EndsAt.recovering {p : Parser α} (hp : EndsAt (· = .endOfInput) p) :
    EndsAt (· = .endOfInput) (recovering p) := by
  intro last ending tokens more hend
  have h := hp last tokens more hend
  rcases hr : p ending tokens with ⟨errors, rest, e | a⟩ <;> rw [hr] at h
  · rw [recovering_of_error hr]
    refine (recovering_of_error h).trans ?_
    rw [resume_before_end hend]
    rfl
  · rw [recovering_of_ok hr]
    exact recovering_of_ok h

private theorem Reads.endsThere {p : Parser α} {L : α → List Token → List SyntaxError → Prop}
    (h : Reads p L) : EndsAt (· = .endOfInput) p :=
  h.endsAt.mono fun _ => .inl

private theorem statements_endsAt (hi : EndsAt (· = .endOfInput) item) (stop : TokenKind → Bool)
    (bound : Nat) : EndsAt (· = .endOfInput) (statements stop item bound) := by
  induction bound with
  | zero => exact .pure []
  | succ bound ih =>
    refine .bind (.stopsAt stop) fun stopped _ => ?_
    cases stopped with
    | true => exact .pure []
    | false => exact .bind hi fun first _ => .map ih

private theorem statement_endsAt (hi : EndsAt (· = .endOfInput) item) (bound : Nat) :
    EndsAt (· = .endOfInput) (statement bound item) := by
  refine .branch (by simp) (fun word hw => (declaration_reads hw).endsThere) ?_
  refine .branch (by simp) (fun word hw => (print_reads hw).endsThere) ?_
  refine .branch (by simp) (fun opening ho => ?_) evaluate_reads.endsThere
  exact .closed (statements_endsAt hi _ bound) (by simp)

private theorem statementWithin_endsAt (bound : Nat) :
    EndsAt (· = .endOfInput) (statementWithin bound) := by
  induction bound with
  | zero => exact .recovering .fail
  | succ bound ih => exact .recovering (statement_endsAt ih (bound + 1))

private theorem statementsOf_endsAt : EndsAt (· = .endOfInput) statementsOf :=
  .of_remaining (fun bound => statements_endsAt (statementWithin_endsAt bound) _ bound)
    fun hbound => statementsUpTo_eq hbound hbound

/-- Tokens count up to the first end of input. What follows one has no influence, and without one
the tokens read as if one stood behind them, on the line of the last token or on line one. -/
theorem ofTokens_up_to_end (hend : ending.kind = .endOfInput) (tokens more : List Token) :
    ofTokens (tokens ++ [ending] ++ more) = ofTokens (tokens ++ [ending]) ∧
      ofTokens tokens = ofTokens (tokens ++ [.endOfInput (tokens.getLast?.elim 1 Token.line)]) := by
  constructor
  · rw [List.append_assoc, ofTokens, ofTokens, List.singleton_append,
      statementsOf_endsAt _ tokens more hend, statementsOf_endsAt _ tokens [] hend]
    rfl
  · rw [ofTokens, ofTokens, statementsOf_endsAt _ tokens [] rfl]
    rfl

/-- Two blocks are left open, with an error in the inner one, in front of an odd end of input. -/
theorem ofTokens_up_to_end_open :
    let opening : Token := ⟨.symbol .leftBrace, "\x7b", .nil, 1⟩
    let word : Token := ⟨.keyword .printWord, "print", .nil, 2⟩
    let ending : Token := ⟨.endOfInput, "odd", .bool true, 7⟩
    ofTokens ([opening, opening, word] ++ [ending] ++ [word, ending]) =
        .error [⟨.expectedExpression, ending⟩, ⟨.unclosedBlock, ending⟩, ⟨.unclosedBlock, ending⟩] ∧
      ofTokens [opening, opening, word] = ofTokens [opening, opening, word, .endOfInput 2] := by
  intro opening word ending
  have hkind : ending.kind = .endOfInput := rfl
  obtain ⟨hmore, hend⟩ := ofTokens_up_to_end hkind [opening, opening, word] [word, ending]
  refine ⟨?_, hend⟩
  rw [hmore]
  exact ofTokens_eq_error_iff.mpr ⟨by decide +kernel, by simp⟩

end Statements
end BlockScript.Program
