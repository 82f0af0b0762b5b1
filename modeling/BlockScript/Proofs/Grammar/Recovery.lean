import BlockScript.Proofs.Grammar.MovingPrograms

/-!
Recovery from errors composes. What is wrong in one part of a token list has no effect on how the
rest is read, if the errors of the part are found in it and reading can go on right behind it.
-/
namespace BlockScript.Program
open BlockScript.Program.Parser Grammar

variable {last final t : Token} {tokens rest left more ending : List Token}
  {errors others : List SyntaxError} {program : List Stmt} {stop : TokenKind → Bool} {n k : Nat}

theorem map_mapTokens_id (program : List Stmt) : program.map (Stmt.mapTokens id) = program := by
  rw [← Stmt.mapAll_eq_map, Stmt.mapAll_id]

/-- All statements up to the end of input or a stopping token. -/
def statementsUpTo (stop : TokenKind → Bool) : Parser (List Stmt) := do
  let count ← remaining
  statements stop (statementWithin count) count

theorem statementsOf_eq : statementsOf = statementsUpTo fun _ => false := rfl

/-- Bounds that leave a round for every token make no difference. -/
theorem statementsUpTo_eq (hn : tokens.length ≤ n) (hk : tokens.length ≤ k) :
    statements stop (statementWithin n) k last tokens = statementsUpTo stop last tokens := by
  have hitem (rest : List Token) (hrest : rest.length ≤ tokens.length) :
      MovesItem id (statementWithin tokens.length) (statementWithin n) last rest :=
    statementWithin_moves Token.keepsText_id hrest (Nat.le_trans hrest hn)
  exact (statements_moves Token.keepsText_id hitem (Nat.le_refl _) hk).eq map_mapTokens_id

theorem statementWithin_ok (n : Nat) (last : Token) (tokens : List Token) :
    ∃ errors rest found, statementWithin n last tokens = ⟨errors, rest, .ok found⟩ := by
  have h (p : Parser Stmt) : ∃ errors rest found,
      recovering p last tokens = ⟨errors, rest, .ok found⟩ := by
    rcases hp : p last tokens with ⟨errors, rest, e | s⟩
    · exact ⟨errors ++ [e], resume rest, none, recovering_of_error hp⟩
    · exact ⟨errors, rest, some s, recovering_of_ok hp⟩
  cases n <;> exact h _

/-- A statement takes at least one token and leaves the tokens behind it. -/
theorem statementWithin_leaves {outcome : Except SyntaxError (Option Stmt)}
    (ht : t.kind ≠ .endOfInput) (hn : rest.length < n)
    (h : statementWithin n last (t :: rest) = ⟨errors, left, outcome⟩) :
    left <:+ t :: rest ∧ left.length ≤ rest.length := by
  have hmoves : MovesItem id (statementWithin n) (statementWithin n) last (t :: rest) :=
    statementWithin_moves Token.keepsText_id hn hn
  have hsuffix := hmoves.moves.suffix
  have hadvances := hmoves.advances t rfl ht
  obtain ⟨_, _, found, hok⟩ := statementWithin_ok n last (t :: rest)
  cases hok.symm.trans h
  rw [h] at hsuffix hadvances
  exact ⟨hsuffix, Nat.le_of_lt_succ (hadvances found rfl)⟩

/-- Reading goes round by round: an item is read, and then what it leaves. -/
theorem rounds_induction (stop : TokenKind → Bool) (last : Token) {motive : List Token → Prop}
    (stops : ∀ tokens, AtStop stop tokens → motive tokens)
    (next : ∀ t rest errors left found, ¬ AtStop stop (t :: rest) →
      statementWithin (rest.length + 1) last (t :: rest) = ⟨errors, left, .ok found⟩ →
      motive left → motive (t :: rest)) (tokens : List Token) : motive tokens := by
  induction hn : tokens.length using Nat.strongRecOn generalizing tokens with
  | ind n ih =>
    rcases atStop_or_next stop tokens with hstop | ⟨t, rest, rfl, hstop⟩
    · exact stops tokens hstop
    obtain ⟨errors, left, found, hitem⟩ := statementWithin_ok (rest.length + 1) last (t :: rest)
    have ht := kind_ne_end_of_not_atStop hstop
    have hleft := (statementWithin_leaves ht (Nat.lt_succ_self _) hitem).2
    rw [List.length_cons] at hn
    exact next t rest errors left found hstop hitem (ih left.length (by omega) left rfl)

theorem statementsUpTo_stop (h : AtStop stop tokens) :
    statementsUpTo stop last tokens = ⟨[], tokens, .ok []⟩ := by
  rw [← statementsUpTo_eq (Nat.le_succ _) (Nat.le_succ _)]
  exact statements_eq_ok_iff.mpr (.inl ⟨h, rfl, rfl, rfl⟩)

/-- Where no stop is next, a round reads an item, and what follows is read as if it stood alone. -/
theorem statementsUpTo_next {found : Option Stmt} (h : ¬ AtStop stop (t :: rest))
    (hitem : statementWithin (rest.length + 1) last (t :: rest) = ⟨errors, left, .ok found⟩) :
    statementsUpTo stop last (t :: rest) =
      ⟨errors ++ (statementsUpTo stop last left).reported, (statementsUpTo stop last left).rest,
        (statementsUpTo stop last left).outcome.map (found.toList ++ ·)⟩ := by
  have ht := kind_ne_end_of_not_atStop h
  have hleft := (statementWithin_leaves ht (Nat.lt_succ_self _) hitem).2
  have hgoes : stopsAt stop last (t :: rest) = ⟨[], t :: rest, .ok false⟩ := by
    classical rw [stopsAt_eq, decide_eq_false h]
  have hmore := bind_return (statements stop (statementWithin (rest.length + 1)) rest.length)
    (found.toList ++ ·) last left
  rw [statementsUpTo_eq (Nat.le_succ_of_le hleft) hleft] at hmore
  rw [← statementsUpTo_eq (Nat.le_refl (rest.length + 1)) (Nat.le_refl (rest.length + 1))]
  exact (bind_of_ok hgoes (bind_of_ok hitem hmore)).trans rfl

theorem statementsUpTo_ok (stop : TokenKind → Bool) (last : Token) (tokens : List Token) :
    ∃ errors left program, statementsUpTo stop last tokens = ⟨errors, left, .ok program⟩ ∧
      AtStop stop left := by
  induction tokens using rounds_induction stop last with
  | stops tokens hstop => exact ⟨[], tokens, [], statementsUpTo_stop hstop, hstop⟩
  | next t rest errors left found hstop hitem ih =>
    obtain ⟨others, ending, program, hmore, hend⟩ := ih
    rw [statementsUpTo_next hstop hitem, hmore]
    exact ⟨_, ending, _, rfl, hend⟩

/-- Reading a program round by round: its errors, its statements and the tokens it leaves. -/
inductive Rounds (last : Token) :
    List Token → List SyntaxError → List Stmt → List Token → Prop where
  | stop {tokens : List Token} : AtStop (fun _ => false) tokens → Rounds last tokens [] [] tokens
  | next {t : Token} {rest left ending : List Token} {errors others : List SyntaxError}
      {found : Option Stmt} {program : List Stmt} : t.kind ≠ .endOfInput →
      statementWithin (rest.length + 1) last (t :: rest) = ⟨errors, left, .ok found⟩ →
      Rounds last left others program ending →
      Rounds last (t :: rest) (errors ++ others) (found.toList ++ program) ending

theorem exists_rounds (last : Token) (tokens : List Token) :
    ∃ errors program ending, Rounds last tokens errors program ending := by
  induction tokens using rounds_induction (fun _ => false) last with
  | stops tokens hstop => exact ⟨[], [], tokens, .stop hstop⟩
  | next t rest errors left found hstop hitem ih =>
    obtain ⟨others, program, ending, hothers⟩ := ih
    exact ⟨_, _, ending, .next (kind_ne_end_of_not_atStop hstop) hitem hothers⟩

theorem Rounds.statementsOf (h : Rounds last tokens errors program ending) :
    statementsOf last tokens = ⟨errors, ending, .ok program⟩ := by
  rw [statementsOf_eq]
  induction h with
  | stop hstop => exact statementsUpTo_stop hstop
  | next ht hfirst _ ih =>
    rw [statementsUpTo_next (by simpa [AtStop] using ht) hfirst, ih]
    rfl

theorem Rounds.atStop (h : Rounds last tokens errors program ending) :
    AtStop (fun _ => false) ending := by
  induction h with
  | stop hstop => exact hstop
  | next _ _ _ ih => exact ih

/-- A parser does what it did when more tokens follow, if its errors are not at the end and reading
can go on right behind its tokens. -/
private theorem recovering_append {p q : Parser Stmt} {found : Option Stmt}
    (hmoves : Moves True id (Stmt.mapTokens id) p q last tokens) (hlast : last.kind = .endOfInput)
    (h : recovering p last tokens = ⟨errors, left, .ok found⟩)
    (herrors : ∀ e ∈ errors, e.token.kind ≠ .endOfInput)
    (hresumes : errors = [] ∨ Resumes tokens more) :
    recovering q final (tokens ++ more) = ⟨errors, left ++ more, .ok found⟩ := by
  obtain ⟨hsuffix, hblame, -, hreply⟩ := hmoves
  specialize hreply final more
  rw [Reply.moved_id Stmt.mapTokens_id, List.map_id] at hreply
  rcases hp : p last tokens with ⟨reported, behind, e | s⟩ <;> rw [hp] at hsuffix hblame hreply
  · cases h.symm.trans (recovering_of_error hp)
    -- The error is at the next token, which the end is not.
    have hbehind : behind ≠ [] := by
      rintro rfl
      refine herrors e (by simp) ?_
      rw [hblame e rfl]
      exact hlast
    have hresume : resume (behind ++ more) = resume behind ++ more :=
      resume_append hbehind (.inr ((hresumes.resolve_left (by simp)).of_suffix hsuffix))
    refine (recovering_of_error (hreply (.inr (.inl hbehind)))).trans ?_
    rw [hresume]
  · cases h.symm.trans (recovering_of_ok hp)
    exact recovering_of_ok (hreply (.inr (.inr ⟨trivial, s, rfl⟩)))

/-- With a round for every token, bounds make no difference to a statement either. -/
theorem statement_moves_within (hn : rest.length ≤ n) (hk : rest.length ≤ k) :
    Moves True id (Stmt.mapTokens id) (statement (n + 1) (statementWithin n))
      (statement (k + 1) (statementWithin k)) last (t :: rest) := by
  refine statement_moves Token.keepsText_id (fun behind hbehind => ?_) (Nat.succ_le_succ hn)
    (Nat.succ_le_succ hk)
  rw [List.length_cons] at hbehind
  exact statementWithin_moves Token.keepsText_id (by omega) (by omega)

theorem statementWithin_append {found : Option Stmt} {m : Nat} (hlast : last.kind = .endOfInput)
    (hn : rest.length ≤ n) (hm : rest.length ≤ m)
    (h : statementWithin (n + 1) last (t :: rest) = ⟨errors, left, .ok found⟩)
    (herrors : ∀ e ∈ errors, e.token.kind ≠ .endOfInput)
    (hresumes : errors = [] ∨ Resumes (t :: rest) more) :
    statementWithin (m + 1) final (t :: rest ++ more) = ⟨errors, left ++ more, .ok found⟩ :=
  recovering_append (statement_moves_within hn hm) hlast h herrors hresumes

/-- Rounds in a part of the tokens, whose errors are not at its end, and then in the rest. -/
theorem Rounds.append {later : List SyntaxError} {following : List Stmt} {beyond : List Token}
    (hlast : last.kind = .endOfInput) (h : Rounds last tokens errors program ending)
    (htokens : ∀ t ∈ tokens, t.kind ≠ .endOfInput)
    (herrors : ∀ e ∈ errors, e.token.kind ≠ .endOfInput)
    (hresumes : errors = [] ∨ Resumes tokens more)
    (hmore : Rounds final more later following beyond) :
    Rounds final (tokens ++ more) (errors ++ later) (program ++ following) beyond := by
  induction h with
  | @stop tokens hstop =>
    cases tokens with
    | nil => exact hmore
    | cons t rest => simpa [htokens t] using hstop t rfl
  | @next t rest left ending errors others found program ht hfirst _ ih =>
    rw [List.append_assoc, List.append_assoc]
    have hsuffix := (statementWithin_leaves ht (Nat.lt_succ_self _) hfirst).1
    have hbehind : rest.length ≤ (rest ++ more).length := by simp
    have happend : statementWithin ((rest ++ more).length + 1) final (t :: rest ++ more) =
        ⟨errors, left ++ more, .ok found⟩ := by
      refine statementWithin_append hlast (Nat.le_refl _) hbehind hfirst ?_ ?_
      · exact fun e he => herrors e (List.mem_append_left _ he)
      · exact hresumes.imp_left fun h => (List.append_eq_nil_iff.mp h).1
    refine .next ht happend (ih ?_ ?_ ?_)
    · exact fun u hu => htokens u (hsuffix.mem hu)
    · exact fun e he => herrors e (List.mem_append_right _ he)
    · exact hresumes.imp (fun h => (List.append_eq_nil_iff.mp h).2) fun h => h.of_suffix hsuffix

theorem Rounds.ofTokens (h : Rounds (lastToken tokens) tokens errors program ending) :
    ofTokens tokens = if errors = [] then .ok program else .error errors := by
  rw [Program.ofTokens, h.statementsOf]
  cases errors <;> rfl

/-- Nothing stops the reading of a program, so its errors are those reported. -/
theorem ofTokens_eq_error_iff : ofTokens tokens = .error errors ↔
    (statementsOf (lastToken tokens) tokens).reported = errors ∧ errors ≠ [] := by
  obtain ⟨reported, program, ending, hrounds⟩ := exists_rounds (lastToken tokens) tokens
  rw [hrounds.ofTokens, hrounds.statementsOf]
  constructor
  · intro h
    split at h
    · cases h
    · rename_i hne
      cases h
      exact ⟨rfl, hne⟩
  · rintro ⟨rfl, hne⟩
    exact if_neg hne

/-- What two token lists are together: the statements of both, or the errors of both. -/
def joined : Except (List SyntaxError) (List Stmt) → Except (List SyntaxError) (List Stmt) →
    Except (List SyntaxError) (List Stmt)
  | .ok program, .ok rest => .ok (program ++ rest)
  | .ok _, .error errors => .error errors
  | .error errors, .ok _ => .error errors
  | .error errors, .error others => .error (errors ++ others)

theorem lastToken_append (tokens : List Token) (hne : more ≠ []) :
    lastToken (tokens ++ more) = lastToken more := by
  obtain ⟨t, rest, rfl⟩ := List.exists_cons_of_ne_nil hne
  rw [lastToken, lastToken, List.getLast?_append, List.getLast?_cons, Option.some_or]

/-- The end of a token list is the end of its last part. -/
private theorem Rounds.at_end (tokens : List Token)
    (h : Rounds (lastToken more) more errors program ending) :
    Rounds (lastToken (tokens ++ more)) more errors program ending := by
  by_cases hne : more = []
  · subst hne
    cases h with
    | stop hstop => exact .stop hstop
  · rwa [lastToken_append tokens hne]

private theorem startsStatement_iff {kind : TokenKind} : startsStatement kind = true ↔
    ∃ word ∈ [Keyword.classWord, .funWord, .varWord, .forWord, .ifWord, .whileWord, .printWord,
      .returnWord], kind = .keyword word := by
  cases kind with
  | keyword word => cases word <;> simp [startsStatement]
  | symbol | identifier | string | number | endOfInput => simp [startsStatement]

/-- Recovery is compositional. If the first of two token lists has no end of input and its errors
are all at its own tokens, and if it has none or reading can go on right behind it, then both
together read as one after the other. -/
theorem ofTokens_append (tokens more : List Token) (htokens : ∀ t ∈ tokens, t.kind ≠ .endOfInput)
    (herrors : ∀ errors, ofTokens tokens = .error errors → ∀ e ∈ errors, e.token ∈ tokens)
    (hbetween : (∃ program, ofTokens tokens = .ok program) ∨
      (∃ t ∈ tokens.getLast?, t.kind = .symbol .semicolon) ∨
      ∀ t ∈ more.head?, t.kind = .endOfInput ∨ ∃ word ∈ [Keyword.classWord, .funWord, .varWord,
        .forWord, .ifWord, .whileWord, .printWord, .returnWord], t.kind = .keyword word) :
    ofTokens (tokens ++ more) = joined (ofTokens tokens) (ofTokens more) := by
  obtain ⟨errors, program, ending, hfirst⟩ := exists_rounds (lastToken tokens) tokens
  obtain ⟨others, rest, beyond, hmore⟩ := exists_rounds (lastToken more) more
  rw [hfirst.ofTokens] at herrors hbetween ⊢
  rw [hmore.ofTokens]
  have hinside : ∀ e ∈ errors, e.token.kind ≠ .endOfInput := by
    intro e he
    have hne : errors ≠ [] := List.ne_nil_of_mem he
    exact htokens _ (herrors errors (if_neg hne) e he)
  have hresumes : errors = [] ∨ Resumes tokens more := by
    by_cases hnil : errors = []
    · exact .inl hnil
    rcases hbetween with ⟨p, hp⟩ | ⟨t, ht, hsemicolon⟩ | hstarts
    · rw [if_neg hnil] at hp
      cases hp
    · refine .inr (.inl fun u hu => ?_)
      cases ht.symm.trans hu
      exact hsemicolon
    · exact .inr (.inr fun t ht => (hstarts t ht).imp_right startsStatement_iff.mpr)
  have hboth := hfirst.append rfl htokens hinside hresumes (hmore.at_end tokens)
  rw [hboth.ofTokens]
  cases errors <;> cases others <;> simp [joined]

/-- Two statements that are none, one after the other. -/
theorem ofTokens_append_unreadable :
    let semicolon : Token := ⟨.symbol .semicolon, ";", .nil, 1⟩
    let number : Token := ⟨.number, "1", .nil, 2⟩
    let first : List Token := [⟨.keyword .printWord, "print", .nil, 1⟩, semicolon]
    let second : List Token := [⟨.keyword .varWord, "var", .nil, 2⟩, number, .endOfInput 2]
    ofTokens (first ++ second) =
      .error [⟨.expectedExpression, semicolon⟩, ⟨.expectedVariableName, number⟩] := by
  intro semicolon number first second
  have hprint : statementWithin ([semicolon].length + 1) (lastToken first) first =
      ⟨[⟨.expectedExpression, semicolon⟩], [], .ok none⟩ := by with_unfolding_all rfl
  have hvar : statementWithin ([number, .endOfInput 2].length + 1) (lastToken second) second =
      ⟨[⟨.expectedVariableName, number⟩], [.endOfInput 2], .ok none⟩ := by
    with_unfolding_all rfl
  have hfirst := Rounds.next (by simp) hprint (.stop (by simp [AtStop]))
  have hsecond := Rounds.next (by simp) hvar (.stop (by simp [AtStop, Token.endOfInput]))
  have h := ofTokens_append first second (by decide)
  rw [hfirst.ofTokens, hsecond.ofTokens] at h
  exact h (by simp [first]) (.inr (.inl ⟨semicolon, rfl, rfl⟩))

end BlockScript.Program
