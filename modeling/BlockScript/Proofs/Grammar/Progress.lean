import BlockScript.Proofs.Grammar.Blame
import Mathlib.Logic.Relation

/-!
Reading gets on. No parser takes an end of input or leaves anything but an end of its tokens, and
where another token is next a statement takes it, whether it can be read or not. So the loops over
statements come to a stop, however the tokens are.
-/
namespace BlockScript.Program
open BlockScript.Program.Parser Grammar

variable {α β : Type}

/-- What a parser takes stands in front of what it leaves, and no end of input is in it. -/
def Takes (p : Parser α) : Prop :=
  ∀ last tokens, ∃ used, tokens = used ++ (p last tokens).rest ∧ ∀ t ∈ used, t.kind ≠ .endOfInput

theorem Blames.takes {perBlock spare : Nat} {p : Parser α} (h : Blames perBlock spare p) :
    Takes p := by
  intro last tokens
  rcases hr : p last tokens with ⟨errors, rest, outcome⟩
  obtain ⟨used, inside, ending, htokens, -, htally⟩ := h.tally hr
  exact ⟨used, htokens, htally.taken⟩

private theorem Takes.length_le {p : Parser α} (h : Takes p) (last : Token) (tokens : List Token) :
    (p last tokens).rest.length ≤ tokens.length := by
  obtain ⟨used, htokens, -⟩ := h last tokens
  rw [congrArg List.length htokens, List.length_append]
  exact Nat.le_add_left _ _

section Rules

/-- The parsers that programs are read with, whatever bounds they are given. -/
inductive Rule : {α : Type} → Parser α → Prop where
  | token {kind : TokenKind} (fault : SyntaxFault) : kind ≠ .endOfInput → Rule (expect kind fault)
  | operand (n : Nat) : Rule (operand (expressionWithin n))
  | unary (n k : Nat) : Rule (unary (operand (expressionWithin n)) k)
  | factor (n k : Nat) : Rule (factor k (expressionWithin n))
  | term (n k : Nat) : Rule (term k (expressionWithin n))
  | comparison (n k : Nat) : Rule (comparison k (expressionWithin n))
  | equality (n k : Nat) : Rule (equality k (expressionWithin n))
  | assignment (n k : Nat) : Rule (assignment k (expressionWithin n))
  | expression : Rule expression
  | declaration : Rule declaration
  | block (n k : Nat) : Rule (block k (statementWithin n))
  | statement (n k : Nat) : Rule (statement k (statementWithin n))
  | item (n : Nat) : Rule (statementWithin n)
  | loop (stop : TokenKind → Bool) (n k : Nat) : Rule (statements stop (statementWithin n) k)
  | program : Rule statementsOf

theorem Rule.takes {p : Parser α} (h : Rule p) : Takes p := by
  have hinner (n : Nat) : ReadsLevel (expressionWithin n) .assignment := expressionWithin_reads n
  cases h with
  | token fault hkind => exact (Blames.expect hkind fun _ => Nat.one_pos : Blames 1 0 _).takes
  | operand n => exact (operand_reads (hinner n)).blames.takes
  | unary n k => exact (unary_reads (operand_reads (hinner n)) k).blames.takes
  | factor n k => exact (factor_reads (hinner n) k).blames.takes
  | term n k => exact (term_reads (hinner n) k).blames.takes
  | comparison n k => exact (comparison_reads (hinner n) k).blames.takes
  | equality n k => exact (equality_reads (hinner n) k).blames.takes
  | assignment n k => exact (assignment_reads (hinner n) k).blames.takes
  | expression => exact expression_reads.blames.takes
  | declaration =>
    have hword : (⟨.keyword .varWord, "var", .nil, 1⟩ : Token).kind = .keyword .varWord := rfl
    exact (declaration_reads hword).blames.takes
  | block n k =>
    have hbody := statements_blames (statementWithin_blames n) (· = .symbol .rightBrace) k
    exact (hbody.closed (by simp) (by simp)).takes
  | statement n k => exact (statement_blames (statementWithin_blames n) k).takes
  | item n => exact (statementWithin_blames n).takes
  | loop stop n k => exact (statements_blames (statementWithin_blames n) stop k).takes
  | program => exact (statementsUpTo_blames _).takes

end Rules

section Statements
variable {p q : Parser α} {f : α → Parser β} {last t : Token} {tokens rest left : List Token}
  {kind : TokenKind} {fault : SyntaxFault}

/-- A parser that succeeds has taken a token. -/
def Gains (p : Parser α) : Prop :=
  ∀ last tokens errors rest a, p last tokens = ⟨errors, rest, .ok a⟩ → rest.length < tokens.length

/-- What the first part leaves, the second gains on. -/
private theorem Takes.bind_gains (hp : Takes p) (hf : ∀ a, Gains (f a)) : Gains (p >>= f) := by
  intro last tokens errors rest b h
  obtain ⟨before, middle, a, after, hfirst, hsecond, -⟩ := bind_eq_ok_iff.mp h
  have hmiddle := hp.length_le last tokens
  rw [hfirst] at hmiddle
  exact Nat.lt_of_lt_of_le (hf a _ _ _ _ _ hsecond) hmiddle

private theorem Takes.closed_gains {g : α → β} (hp : Takes p) :
    Gains (do let a ← p; let _ ← expect kind fault; return g a) := by
  refine hp.bind_gains fun a last tokens errors rest b h => ?_
  obtain ⟨before, middle, t, after, hclosing, hreturn, -⟩ := bind_eq_ok_iff.mp h
  obtain ⟨-, rfl, -⟩ := expect_eq_ok_iff.mp hclosing
  cases hreturn
  exact Nat.lt_succ_self _

private theorem branch_gains (hp : Gains p) (hq : Gains q) :
    Gains (do if ← skip kind then p else q) := by
  intro last tokens errors rest a h
  rcases branch_eq_ok_iff.mp h with ⟨t, more, rfl, -, hnext⟩ | ⟨-, hother⟩
  · exact Nat.lt_succ_of_lt (hp _ _ _ _ _ hnext)
  · exact hq _ _ _ _ _ hother

/-- Every statement ends with a semicolon or a closing brace. -/
private theorem statement_gains (n k : Nat) : Gains (statement k (statementWithin n)) := by
  have hexpression : Takes expression := (Rule.expression).takes
  have hname : Takes (expect .identifier .expectedVariableName) := (Rule.token _ (by simp)).takes
  refine branch_gains (hname.bind_gains fun name => ?_) ?_
  · refine branch_gains ?_ ?_
    · have hinitial : Blames 0 0 (some <$> expression) := .map expression_reads.blames
      exact hinitial.takes.closed_gains
    · have hnone : Blames 0 0 (pure none : Parser (Option Expr)) := .pure none
      exact hnone.takes.closed_gains
  refine branch_gains hexpression.closed_gains ?_
  exact branch_gains (Rule.loop _ n k).takes.closed_gains hexpression.closed_gains

/-- Recovery drops the token that stopped a parser, so one is gone in any case. -/
private theorem recovering_length_lt {p : Parser Stmt} (hp : Takes p) (hgains : Gains p)
    (ht : t.kind ≠ .endOfInput) :
    (recovering p last (t :: rest)).rest.length < (t :: rest).length := by
  rcases hr : p last (t :: rest) with ⟨errors, left, e | s⟩
  · rw [recovering_of_error hr]
    obtain ⟨used, htokens, -⟩ := hp last (t :: rest)
    rw [hr] at htokens
    rcases List.suffix_cons_iff.mp ⟨used, htokens.symm⟩ with rfl | hleft
    · exact Nat.lt_succ_of_le (resume_suffix_tail ht rest).length_le
    · exact Nat.lt_succ_of_le ((resume_suffix left).trans hleft).length_le
  · rw [recovering_of_ok hr]
    exact hgains _ _ _ _ _ hr

private theorem statementWithin_length_lt (n : Nat) (last : Token) (ht : t.kind ≠ .endOfInput)
    (rest : List Token) :
    (statementWithin n last (t :: rest)).rest.length < (t :: rest).length := by
  cases n with
  | zero =>
    have hfail : Blames 0 0 (fail .expectedExpression : Parser Stmt) := .fail (by simp)
    exact recovering_length_lt hfail.takes (fun _ _ _ _ _ h => by cases h) ht
  | succ n => exact recovering_length_lt (Rule.statement n _).takes (statement_gains n _) ht

/-- Where no end is next, a statement takes the next token. -/
theorem statementWithin_takes_next (n : Nat) (last : Token) (ht : t.kind ≠ .endOfInput)
    (rest : List Token) :
    ∃ used, t :: rest = t :: used ++ (statementWithin n last (t :: rest)).rest := by
  have hlength := statementWithin_length_lt n last ht rest
  obtain ⟨used, htokens, -⟩ := (Rule.item n).takes last (t :: rest)
  cases used with
  | nil =>
    rw [← List.nil_append (statementWithin n last (t :: rest)).rest, ← htokens] at hlength
    exact absurd hlength (Nat.lt_irrefl _)
  | cons first used =>
    obtain ⟨rfl, -⟩ := List.cons.inj htokens
    exact ⟨used, htokens⟩

end Statements

section Loops
variable {stop : TokenKind → Bool} {last : Token} {tokens : List Token} {n k : Nat}

/-- Recovery stops at the end, behind a semicolon, or in front of a word that starts a statement. -/
theorem resume_stops (tokens : List Token) : ∃ dropped, tokens = dropped ++ resume tokens ∧
    (∀ t ∈ dropped, t.kind ≠ .endOfInput) ∧
    (AtStop (fun _ => false) (resume tokens) ∨
      (∃ t ∈ dropped.getLast?, t.kind = .symbol .semicolon) ∨
      dropped ≠ [] ∧ ∃ t ∈ (resume tokens).head?, startsStatement t.kind = true) := by
  fun_induction resume tokens with
  | case1 => exact ⟨[], rfl, by simp, .inl (by simp [AtStop])⟩
  | case2 t rest hend => exact ⟨[], rfl, by simp, .inl (by simp [AtStop, hend])⟩
  | case3 t rest hend hsemicolon =>
    exact ⟨[t], rfl, by simp [hsemicolon], .inr (.inl ⟨t, rfl, hsemicolon⟩)⟩
  | case4 t rest hend hsemicolon hword =>
    have hstarts := (Option.any_eq_true _ _).mp hword
    exact ⟨[t], rfl, by simpa using hend, .inr (.inr ⟨List.cons_ne_nil _ _, hstarts⟩)⟩
  | case5 t rest hend hsemicolon hword ih =>
    obtain ⟨dropped, hrest, hdropped, hstop⟩ := ih
    refine ⟨t :: dropped, congrArg (t :: ·) hrest, by simpa using ⟨hend, hdropped⟩, ?_⟩
    rcases hstop with hstop | ⟨u, hu, hkind⟩ | ⟨-, hstarts⟩
    · exact .inl hstop
    · exact .inr (.inl ⟨u, by rw [List.getLast?_cons, hu]; rfl, hkind⟩)
    · exact .inr (.inr ⟨List.cons_ne_nil _ _, hstarts⟩)

/-- One round of a loop over statements: no stop is next, and a statement is read. -/
inductive Round (n : Nat) (stop : TokenKind → Bool) (last : Token) :
    List Token → List Token → Prop where
  | read {tokens left : List Token} {errors : List SyntaxError} {found : Option Stmt} :
      ¬ AtStop stop tokens → statementWithin n last tokens = ⟨errors, left, .ok found⟩ →
      Round n stop last tokens left

theorem Round.length_lt {left : List Token} (h : Round n stop last tokens left) :
    left.length < tokens.length := by
  cases h with
  | read hstop hitem =>
    rcases atStop_or_next stop tokens with h | ⟨t, rest, rfl, -⟩
    · exact absurd h hstop
    have hend := kind_ne_end_of_not_atStop hstop
    have hlength := statementWithin_length_lt n last hend rest
    rwa [hitem] at hlength

theorem Round.wellFounded (n : Nat) (stop : TokenKind → Bool) (last : Token) :
    WellFounded fun left tokens => Round n stop last tokens left :=
  Subrelation.wf Round.length_lt (measure List.length).wf

/-- A loop with as many rounds to spare as there are tokens goes on to a stop. -/
theorem statements_rounds (n : Nat) (stop : TokenKind → Bool) (last : Token)
    (hk : tokens.length ≤ k) : ∃ errors left program,
      statements stop (statementWithin n) k last tokens = ⟨errors, left, .ok program⟩ ∧
        Relation.ReflTransGen (Round n stop last) tokens left ∧ AtStop stop left := by
  induction k generalizing tokens with
  | zero =>
    obtain rfl := List.length_eq_zero_iff.mp (Nat.le_zero.mp hk)
    exact ⟨[], [], [], rfl, .refl, by simp [AtStop]⟩
  | succ k ih =>
    by_cases hstop : AtStop stop tokens
    · exact ⟨[], tokens, [], statements_eq_ok_iff.mpr (.inl ⟨hstop, rfl, rfl, rfl⟩), .refl, hstop⟩
    obtain ⟨errors, middle, found, hitem⟩ := statementWithin_ok n last tokens
    have hround : Round n stop last tokens middle := .read hstop hitem
    obtain ⟨others, left, program, hmore, hrounds, hleft⟩ :=
      ih (Nat.le_of_lt_succ (Nat.lt_of_lt_of_le hround.length_lt hk))
    refine ⟨errors ++ others, left, found.toList ++ program, ?_, .head hround hrounds, hleft⟩
    exact statements_eq_ok_iff.mpr
      (.inr ⟨hstop, errors, middle, found, others, program, hitem, hmore, rfl, rfl⟩)

/-- Reading always gets on. Every parser of the grammar takes tokens from the front and no end of
input, and so does recovery, which goes on to the end, a semicolon or a word that starts a
statement. A statement takes the next token unless that is an end of input, read or not. Hence a
loop over statements has no infinite sequence of rounds, it makes rounds up to a stop, and the
bounds do not show where there are not fewer than tokens. -/
theorem reading_progresses :
    (∀ {α : Type} {p : Parser α}, Rule p → Takes p) ∧
    (∀ tokens, ∃ dropped, tokens = dropped ++ resume tokens ∧
      (∀ t ∈ dropped, t.kind ≠ .endOfInput) ∧
      (AtStop (fun _ => false) (resume tokens) ∨
        (∃ t ∈ dropped.getLast?, t.kind = .symbol .semicolon) ∨
        dropped ≠ [] ∧ ∃ t ∈ (resume tokens).head?, startsStatement t.kind = true)) ∧
    (∀ n last t rest, t.kind ≠ .endOfInput →
      ∃ used, t :: rest = t :: used ++ (statementWithin n last (t :: rest)).rest) ∧
    (∀ n stop last, WellFounded fun left tokens => Round n stop last tokens left) ∧
    (∀ n k stop last tokens, tokens.length ≤ k → ∃ errors left program,
      statements stop (statementWithin n) k last tokens = ⟨errors, left, .ok program⟩ ∧
        Relation.ReflTransGen (Round n stop last) tokens left ∧ AtStop stop left) ∧
    ∀ n k stop last tokens, tokens.length ≤ n → tokens.length ≤ k →
      statements stop (statementWithin n) k last tokens = statementsUpTo stop last tokens := by
  refine ⟨Rule.takes, resume_stops, fun n last t rest ht => ?_, Round.wellFounded, ?_, ?_⟩
  · exact statementWithin_takes_next n last ht rest
  · exact fun n k stop last tokens hk => statements_rounds n stop last hk
  · exact fun n k stop last tokens hn hk => statementsUpTo_eq hn hk

/-- A stray parenthesis and a block left open, with tokens behind the end of input. -/
theorem reading_progresses_stray :
    let stray : Token := ⟨.symbol .rightParen, ")", .nil, 1⟩
    let opening : Token := ⟨.symbol .leftBrace, "\x7b", .nil, 1⟩
    let semicolon : Token := ⟨.symbol .semicolon, ";", .nil, 1⟩
    let last : Token := .endOfInput 1
    let tokens := [stray, semicolon, opening, last, stray]
    (Rule expression ∧ stray.kind ≠ .endOfInput ∧ tokens.length ≤ 5) ∧
      (∃ used, tokens = used ++ (expression last tokens).rest ∧
        ∀ t ∈ used, t.kind ≠ .endOfInput) ∧
      (∃ used, tokens = stray :: used ++ (statementWithin 5 last tokens).rest) ∧
      ∃ errors left program, statementsUpTo (fun _ => false) last tokens =
          ⟨errors, left, .ok program⟩ ∧
        Relation.ReflTransGen (Round 5 (fun _ => false) last) tokens left ∧
        AtStop (fun _ => false) left := by
  intro stray opening semicolon last tokens
  have hstray : stray.kind ≠ .endOfInput := by decide
  have hlength : tokens.length ≤ 5 := Nat.le_refl 5
  obtain ⟨htakes, -, hnext, -, hrounds, hbounds⟩ := reading_progresses
  obtain ⟨errors, left, program, hloop, hends⟩ :=
    hrounds 5 5 (fun _ => false) last tokens hlength
  rw [hbounds 5 5 _ last tokens hlength hlength] at hloop
  exact ⟨⟨.expression, hstray, hlength⟩, htakes .expression last tokens,
    hnext 5 last stray _ hstray, errors, left, program, hloop, hends⟩

end Loops

end BlockScript.Program
