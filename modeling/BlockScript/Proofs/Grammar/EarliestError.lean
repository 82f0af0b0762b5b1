import BlockScript.Proofs.Grammar.Prediction
import BlockScript.Proofs.Grammar.Recovery
import BlockScript.Proofs.Grammar.Relaxed

/-!
Where the first error is found. Reading that gives up at its first error is predictive, and reading
with recovery reports the same error first. So the tokens before it can be completed to a program of
the relaxed grammar, and with the token it is at they cannot.
-/
namespace BlockScript.Program
open BlockScript.Program.Parser Grammar Relaxed

variable {α β : Type}

/-- All errors of a reply, with the one that stopped it at the end. -/
def Reply.errors (r : Reply α) : List SyntaxError :=
  match r.outcome with
  | .ok _ => r.reported
  | .error e => r.reported ++ [e]

/-- The second parser does what the first does, or has the errors of the first before any others
where that one stops. -/
def Foretells (p q : Parser α) : Prop :=
  ∀ last tokens,
    (∃ errors rest a, p last tokens = ⟨errors, rest, .ok a⟩ ∧
      q last tokens = ⟨errors, rest, .ok a⟩) ∨
    ∃ errors rest e, p last tokens = ⟨errors, rest, .error e⟩ ∧
      errors ++ [e] <+: (q last tokens).errors

namespace Foretells
variable {p q p' q' : Parser α} {f g : α → Parser β} {kind : TokenKind}

theorem refl (p : Parser α) : Foretells p p := by
  intro last tokens
  rcases hp : p last tokens with ⟨errors, rest, e | a⟩
  · exact .inr ⟨errors, rest, e, rfl, List.prefix_rfl⟩
  · exact .inl ⟨errors, rest, a, rfl, rfl⟩

theorem bind (h : Foretells p q) (hf : ∀ a, Foretells (f a) (g a)) :
    Foretells (p >>= f) (q >>= g) := by
  intro last tokens
  rcases h last tokens with ⟨errors, middle, a, hp, hq⟩ | ⟨errors, rest, e, hp, hleads⟩
  · rcases hf a last middle with ⟨others, rest, b, hfirst, hsecond⟩ |
      ⟨others, rest, e, hfirst, hleads⟩
    · exact .inl ⟨errors ++ others, rest, b, bind_of_ok hp hfirst, bind_of_ok hq hsecond⟩
    · refine .inr ⟨errors ++ others, rest, e, bind_of_ok hp hfirst, ?_⟩
      rcases hsecond : g a last middle with ⟨reported, left, e' | b⟩
      all_goals
        rw [hsecond] at hleads
        rw [bind_of_ok hq hsecond, List.append_assoc]
        simpa [Reply.errors] using hleads
  · refine .inr ⟨errors, rest, e, bind_of_error hp, hleads.trans ?_⟩
    rcases hq : q last tokens with ⟨reported, middle, e' | a⟩
    · rw [bind_of_error hq]
      exact List.prefix_rfl
    · rcases hg : g a last middle with ⟨others, left, e' | b⟩ <;> rw [bind_of_ok hq hg]
      all_goals simp [Reply.errors]

theorem branch (h : Foretells p q) (h' : Foretells p' q') :
    Foretells (do if ← skip kind then p else p') (do if ← skip kind then q else q') :=
  .bind (.refl _) fun taken => by cases taken <;> assumption

/-- Recovery reports the error it recovers from. -/
theorem recovering (h : Foretells p q) :
    Foretells (do return some (← p)) (recovering q) := by
  intro last tokens
  rcases h last tokens with ⟨errors, rest, a, hp, hq⟩ | ⟨errors, rest, e, hp, hleads⟩
  · exact .inl ⟨errors, rest, some a, by rw [bind_return, hp]; rfl, recovering_of_ok hq⟩
  · refine .inr ⟨errors, rest, e, bind_of_error hp, ?_⟩
    rcases hq : q last tokens with ⟨reported, left, e' | a⟩ <;> rw [hq] at hleads
    · rw [recovering_of_error hq]
      exact hleads
    · rw [recovering_of_ok hq]
      exact hleads

end Foretells

/-- A statement of at most `bound` tokens, with no recovery inside it. -/
def strictWithin : (bound : Nat) → Parser (Option Stmt)
  | 0 => fail .expectedExpression
  | bound + 1 => do return some (← statement (bound + 1) (strictWithin bound))

/-- All statements up to the end of input, if there is no error to recover from. -/
def strictly : Parser (List Stmt) := do
  let count ← remaining
  statements (fun _ => false) (strictWithin count) count

section Foretelling
variable {item item' : Parser (Option Stmt)}

private theorem statements_foretells (h : Foretells item item') (stop : TokenKind → Bool)
    (bound : Nat) :
    Foretells (statements stop item bound) (statements stop item' bound) := by
  induction bound with
  | zero => exact .refl _
  | succ bound ih =>
    refine .bind (.refl _) fun stopped => ?_
    cases stopped with
    | true => exact .refl _
    | false => exact .bind h fun _ => .bind ih fun _ => .refl _

private theorem statement_foretells (h : Foretells item item') (bound : Nat) :
    Foretells (statement bound item) (statement bound item') :=
  .branch (.refl _) (.branch (.refl _)
    (.branch (.bind (statements_foretells h _ bound) fun _ => .refl _) (.refl _)))

private theorem strictWithin_foretells (bound : Nat) :
    Foretells (strictWithin bound) (statementWithin bound) := by
  induction bound with
  | zero =>
    intro last tokens
    exact .inr ⟨[], tokens, _, rfl, List.prefix_rfl⟩
  | succ bound ih => exact .recovering (statement_foretells ih (bound + 1))

theorem strictly_foretells : Foretells strictly statementsOf :=
  .bind (.refl _) fun count => statements_foretells (strictWithin_foretells count) _ count

end Foretelling

section Bounds
variable {f : Token → Token} {last : Token} {tokens : List Token} {n m : Nat}

private theorem strictWithin_nil (bound : Nat) (last : Token) :
    strictWithin bound last [] = ⟨[], [], .error ⟨.expectedExpression, last⟩⟩ := by
  cases bound <;> rfl

private theorem strictWithin_moves (hf : Token.KeepsText f) (hn : tokens.length ≤ n)
    (hm : tokens.length ≤ m) : MovesItem f (strictWithin n) (strictWithin m) last tokens := by
  refine bounds_induction (motive := fun n m tokens =>
    MovesItem f (strictWithin n) (strictWithin m) last tokens) ?_ ?_ hn hm
  · intro n m
    refine ⟨?_, fun _ ht => by cases ht⟩
    exact Moves.fail.congr_nil (strictWithin_nil n last) (strictWithin_nil m (f last))
  · intro n m t rest hn hm ih
    have hmoves : Moves True f (Option.map (Stmt.mapTokens f)) (strictWithin (n + 1))
        (strictWithin (m + 1)) last (t :: rest) := by
      refine .map (statement_moves hf (fun left hleft => ?_) (Nat.succ_le_succ hn)
        (Nat.succ_le_succ hm)) fun _ => rfl
      exact ih left (Nat.le_of_lt_succ hleft)
    exact ⟨hmoves.opened, fun _ _ _ => hmoves.shorter trivial⟩

private theorem strict_moves (hf : Token.KeepsText f) (stop : TokenKind → Bool)
    (hn : tokens.length ≤ n) (hm : tokens.length ≤ m) :
    Moves False f (List.map (Stmt.mapTokens f)) (statements stop (strictWithin n) n)
      (statements stop (strictWithin m) m) last tokens :=
  statements_moves hf (fun _ hrest => strictWithin_moves hf (Nat.le_trans hrest hn)
    (Nat.le_trans hrest hm)) hn hm

end Bounds

section Statements
variable {item : Parser (Option Stmt)}

private theorem statements_predictive (hi : Predictive item fun _ => IsClause)
    (stop : TokenKind → Bool)
    (bound : Nat) : Predictive (statements stop item bound) fun _ => IsProgram := by
  induction bound with
  | zero => exact .pure ⟨[], rfl⟩
  | succ bound ih =>
    refine .bind (.stopsAt stop) ?_
    rintro stopped used rfl
    cases stopped with
    | true => exact .pure ⟨[], rfl⟩
    | false =>
      refine .bind hi ?_
      rintro found used ⟨first, rfl⟩
      refine .map ih ?_
      rintro list used ⟨rest, rfl⟩
      exact ⟨first :: rest, rfl⟩

private theorem statement_predictive (hi : Predictive item fun _ => IsClause) (bound : Nat) :
    Predictive (statement bound item) fun _ => IsClause := by
  refine .branch (fun word hw => (declaration_reads hw).predictive.mono ?_) ?_
  · exact fun s used ⟨marks, hd⟩ => exists_clause hd
  refine .branch (fun word hw => (print_reads hw).predictive.mono ?_) ?_
  · exact fun s used ⟨marks, hd⟩ => exists_clause hd
  refine .branch (fun opening ho => .closed (by decide) (statements_predictive hi _ bound) ?_) ?_
  · rintro list used closing ⟨clauses, rfl⟩ hc
    exact ⟨.block (.of opening ho) clauses (.of closing hc), rfl⟩
  · exact evaluate_reads.predictive.mono fun s used ⟨marks, hd⟩ => exists_clause hd

private theorem strictWithin_predictive (bound : Nat) :
    Predictive (strictWithin bound) fun _ => IsClause := by
  induction bound with
  | zero =>
    refine .fail (by decide) ?_
    let opening : Token := ⟨.symbol .leftBrace, "", .nil, 1⟩
    let closing : Token := ⟨.symbol .rightBrace, "", .nil, 1⟩
    exact ⟨none, _, .block (.of opening rfl) [] (.of closing rfl), rfl⟩
  | succ bound ih => exact .map (statement_predictive ih (bound + 1)) fun _ _ hc => hc

theorem strictly_predictive : Predictive strictly fun _ => IsProgram :=
  .of_remaining (fun bound => statements_predictive (strictWithin_predictive bound) _ bound)
    fun h => (strict_moves Token.keepsText_id _ (Nat.le_refl _) h).eq map_mapTokens_id

end Statements

section Earliest
variable {last : Token} {tokens used rest : List Token} {errors : List SyntaxError}

/-- The errors of a token list are those of its reply. -/
private theorem errors_of_ofTokens_eq_error (h : ofTokens tokens = .error errors) :
    (statementsOf (lastToken tokens) tokens).errors = errors := by
  unfold ofTokens at h
  rcases hr : statementsOf (lastToken tokens) tokens with ⟨reported, left, e | program⟩ <;>
    rw [hr] at h
  · exact Except.error.inj h
  · cases reported with
    | nil => cases h
    | cons => exact Except.error.inj h

/-- A program of the relaxed grammar is read with no error but bad targets. -/
private theorem fault_of_isProgram (h : IsProgram used) (last : Token)
    (hrest : AtStop (fun _ => false) rest) :
    ∀ e ∈ (statementsOf last (used ++ rest)).errors, e.fault = .invalidTarget := by
  obtain ⟨clauses, rfl⟩ := h
  obtain ⟨program, hd⟩ := Clause.declarations clauses
  rw [statementsOf_complete hd last hrest]
  intro e he
  obtain ⟨mark, -, rfl⟩ := List.mem_map.mp he
  rfl

/-- So nothing stops strict reading of it. -/
theorem strictly_ne_error (h : IsProgram used) (hrest : AtStop (fun _ => false) rest)
    {left : List Token} {e : SyntaxError} :
    strictly last (used ++ rest) ≠ ⟨errors, left, .error e⟩ := by
  intro hstrict
  rcases strictly_foretells last (used ++ rest) with ⟨_, _, _, hok, -⟩ | ⟨_, _, _, hstop, hleads⟩
  · cases hok.symm.trans hstrict
  · cases hstop.symm.trans hstrict
    refine (strictly_predictive.stops hstrict).1 ?_
    exact fault_of_isProgram h last hrest e (hleads.mem (by simp))

private theorem kind_ne_end_of_isProgram (h : IsProgram tokens) :
    ∀ t ∈ tokens, t.kind ≠ .endOfInput := by
  obtain ⟨program, marks, hd⟩ := isProgram_iff.mp h
  exact hd.kind_ne_end

/-- The first error that is not a bad target stops strict reading. -/
theorem exists_strictly_error {e : SyntaxError} (h : ofTokens tokens = .error errors)
    (he : errors.find? (fun e => e.fault ≠ .invalidTarget) = some e) :
    ∃ before left, strictly (lastToken tokens) tokens = ⟨before, left, .error e⟩ := by
  have herrors := errors_of_ofTokens_eq_error h
  rcases strictly_foretells (lastToken tokens) tokens with ⟨before, left, program, hok, hread⟩ |
    ⟨before, left, first, hstop, later, hlater⟩
  · rw [hread] at herrors
    obtain rfl : before = errors := herrors
    have hfault := strictly_predictive.reports hok e (List.mem_of_find?_eq_some he)
    simpa [hfault] using List.find?_some he
  · have hbefore : before.find? (fun e => e.fault ≠ .invalidTarget) = none := by
      simpa using strictly_predictive.reports hstop
    rw [← herrors, ← hlater, List.append_assoc, List.find?_append, hbefore] at he
    have hfirst := (strictly_predictive.stops hstop).1
    obtain rfl : first = e := by simpa [hfirst] using he
    exact ⟨before, left, hstop⟩

end Earliest

/-- The tokens can be completed to a program of the relaxed grammar. -/
def Viable (tokens : List Token) : Prop := ∃ more, IsProgram (tokens ++ more)

/-- The token at the end: the first end of input, or what stands for it. -/
def endOf (tokens : List Token) : Token :=
  (tokens.find? fun t => t.kind = .endOfInput).getD (lastToken tokens)

theorem endOf_append {used rest : List Token} (h : ∀ t ∈ used, t.kind ≠ .endOfInput)
    (hrest : AtStop (fun _ => false) rest) :
    endOf (used ++ rest) = rest.head?.getD (lastToken (used ++ rest)) := by
  have hnone : used.find? (fun t => t.kind = .endOfInput) = none := by simpa using h
  rw [endOf, List.find?_append, hnone, Option.none_or]
  cases rest with
  | nil => rfl
  | cons t more =>
    have ht : t.kind = .endOfInput := by simpa [AtStop] using hrest
    simp [ht]

/-- Errors are found at the earliest token. Of the errors that are no bad targets, the first is at
the first token with which the tokens before it cannot be completed to a program any more; or it is
at the end of tokens that are no program but can be completed to one. -/
theorem first_error_earliest {tokens : List Token} {errors : List SyntaxError} {e : SyntaxError}
    (h : ofTokens tokens = .error errors)
    (he : errors.find? (fun e => e.fault ≠ .invalidTarget) = some e) :
    (∃ p, (body tokens)[p]? = some e.token ∧ Viable ((body tokens).take p) ∧
      ¬ Viable ((body tokens).take (p + 1))) ∨
    e.token = endOf tokens ∧ Viable (body tokens) ∧ ¬ IsProgram (body tokens) := by
  obtain ⟨before, rest, hstrict⟩ := exists_strictly_error h he
  obtain ⟨used, htokens, -, more, hprogram⟩ := strictly_predictive.breaks hstrict
  have htoken := (strictly_predictive.stops hstrict).2
  have hused : ∀ t ∈ used, t.kind ≠ .endOfInput := fun t ht =>
    kind_ne_end_of_isProgram hprogram t (List.mem_append_left more ht)
  by_cases hrest : AtStop (fun _ => false) rest
  · have hbody : body tokens = used := by rw [htokens, body_append hused hrest]
    rw [hbody]
    refine .inr ⟨?_, ⟨more, hprogram⟩, fun hwhole => ?_⟩
    · rw [htoken, htokens, endOf_append hused hrest]
    · rw [htokens] at hstrict
      exact strictly_ne_error hwhole hrest hstrict
  · obtain ⟨t, others, rfl⟩ : ∃ t others, rest = t :: others := by
      cases rest with
      | nil => exact absurd (by simp [AtStop]) hrest
      | cons t others => exact ⟨t, others, rfl⟩
    have ht : t.kind ≠ .endOfInput := by simpa [AtStop] using hrest
    have hbody : body tokens = used ++ t :: body others := by
      rw [htokens, body, List.takeWhile_append_of_pos (by simpa using hused)]
      simp [body, ht]
    refine .inl ⟨used.length, ?_, ?_, ?_⟩
    · simp [hbody, htoken]
    · rw [hbody, List.take_left]
      exact ⟨more, hprogram⟩
    · rw [hbody, List.take_length_add_append]
      rintro ⟨following, hwhole⟩
      rw [List.append_assoc] at hwhole
      change IsProgram (used ++ t :: following) at hwhole
      -- The reply depends on the tokens only up to the one it stops at.
      have hahead : strictly (lastToken tokens) (used ++ t :: following ++ []) =
          ⟨before, t :: following, .error e⟩ := by
        rw [List.append_nil]
        exact strictly_predictive.ahead (htokens ▸ hstrict)
      exact strictly_ne_error hwhole (by simp [AtStop]) hahead

/-- An expression is missing in a block with a bad target before it. -/
theorem first_error_earliest_print :
    let number : Token := ⟨.number, "1", .string "one", 1⟩
    let mark : Token := ⟨.symbol .equal, "=", .nil, 1⟩
    let unexpected : Token := ⟨.symbol .semicolon, ";", .nil, 2⟩
    let tokens := [⟨.symbol .leftBrace, "\x7b", .nil, 1⟩, number, mark, number,
      ⟨.symbol .semicolon, ";", .nil, 1⟩, ⟨.keyword .printWord, "print", .nil, 2⟩, unexpected,
      ⟨.symbol .rightBrace, "\x7d", .nil, 2⟩]
    ofTokens tokens = .error [⟨.invalidTarget, mark⟩, ⟨.expectedExpression, unexpected⟩] ∧
      Viable (tokens.take 6) ∧ ¬ Viable (tokens.take 7) := by
  intro number mark unexpected tokens
  have hread : ofTokens tokens =
      .error [⟨.invalidTarget, mark⟩, ⟨.expectedExpression, unexpected⟩] := by
    have herrors : (match ofTokens tokens with | .error errors => errors | .ok _ => []) =
        [⟨.invalidTarget, mark⟩, ⟨.expectedExpression, unexpected⟩] := by decide +kernel
    cases hr : ofTokens tokens with
    | error errors => simpa [hr] using herrors
    | ok program => simp [hr] at herrors
  have hbody : body tokens = tokens := rfl
  have honly : ∀ p < 8, tokens[p]? = some unexpected → p = 6 := by decide
  refine ⟨hread, ?_⟩
  rcases first_error_earliest hread rfl with ⟨p, hp, hbefore, hwith⟩ | ⟨hend, -⟩
  · rw [hbody] at hp hbefore hwith
    obtain rfl : p = 6 := honly p (List.getElem?_eq_some_iff.mp hp).1 hp
    exact ⟨hbefore, hwith⟩
  · exact absurd hend (by decide)

end BlockScript.Program
