import BlockScript.Proofs.Grammar.LaterStatements

/-!
Errors behind other tokens. Tokens that do not break off inside a statement hide no error that is
found in later ones before a closing brace that closes nothing. Tokens that do break off hide only
errors of the statement whose word they have blamed.
-/
namespace BlockScript.Program
open BlockScript.Program.Parser Grammar

variable {last t : Token} {tokens rest more : List Token} {stop : TokenKind → Bool}

section Words
variable {used left : List Token} {s : Stmt} {marks : List SyntaxError}

/-- A declaration behind a word of its own has a semicolon only at its end. -/
private theorem inner_of_word (h : Declaration (t :: used) s marks)
    (ht : t.kind = .keyword .varWord ∨ t.kind = .keyword .printWord) :
    ∃ before closing, used = before ++ [closing] ∧ closing.kind = .symbol .semicolon ∧
      ∀ u ∈ before, Inner u.kind := by
  generalize htokens : t :: used = whole at h
  cases h with
  | @«variable» _ name closing _ hk hc =>
    cases htokens
    exact ⟨[name], closing, rfl, hc, by simp [hk, Inner.identifier]⟩
  | @initialized _ name mark closing tokens _ _ _ hk hm hd hc =>
    cases htokens
    have hmark : Inner mark.kind := hm ▸ .symbol (by simp)
    exact ⟨name :: mark :: tokens, closing, rfl, hc,
      List.forall_mem_cons.mpr ⟨hk ▸ .identifier, List.forall_mem_cons.mpr ⟨hmark, hd.inner⟩⟩⟩
  | @print _ closing tokens _ _ _ hd hc =>
    cases htokens
    exact ⟨tokens, closing, rfl, hc, hd.inner⟩
  | block ho =>
    cases htokens
    simp [ho] at ht
  | expression hd =>
    obtain ⟨u, more, rfl, hu⟩ := hd.head
    cases htokens
    rcases ht with ht | ht <;> simp [ht, startsExpression] at hu

private theorem resume_next (hend : t.kind ≠ .endOfInput) (hsemicolon : t.kind ≠ .symbol .semicolon)
    (hmore : ∀ u ∈ more.head?, startsStatement u.kind = false) :
    resume (t :: more) = resume more := by
  cases more with
  | nil => simp [resume, hend]
  | cons u more =>
    have hu := hmore u rfl
    conv_lhs => rw [resume]
    simp [hend, hsemicolon, hu]

/-- Recovery passes over what belongs to an expression. -/
private theorem resume_inner (hend : t.kind ≠ .endOfInput)
    (hsemicolon : t.kind ≠ .symbol .semicolon) (hused : ∀ u ∈ used, Inner u.kind)
    (hmore : ∀ u ∈ more.head?, startsStatement u.kind = false) :
    resume (t :: (used ++ more)) = resume more := by
  induction used generalizing t with
  | nil => exact resume_next hend hsemicolon hmore
  | cons u used ih =>
    obtain ⟨⟨hu, husemicolon⟩, hused⟩ := List.forall_mem_cons.mp hused
    obtain ⟨huend, hustart⟩ := not_or.mp hu
    rw [List.cons_append, resume_next hend hsemicolon (by simpa using hustart)]
    exact ih huend husemicolon hused

/-- What a declaration takes behind its word before it breaks off belongs to an expression, for its
semicolon is still to come. -/
private theorem inner_of_error {e : SyntaxError}
    (ht : t.kind = .keyword .varWord ∨ t.kind = .keyword .printWord)
    (h : statement (rest.length + 1) (statementWithin rest.length) last (t :: rest) =
      ⟨marks, left, .error e⟩) :
    ∃ used, rest = used ++ left ∧ (∀ u ∈ used, Inner u.kind) ∧ e.token = left.head?.getD last := by
  obtain ⟨p, hp, hstatement⟩ := statement_of_word ht
  have hr := h
  rw [hstatement] at hr
  obtain ⟨used, rfl, s, more, others, hdeclared⟩ := hp.predictive.breaks hr
  obtain ⟨before, closing, hused, -, hbefore⟩ := inner_of_word hdeclared ht
  have hmore : more ≠ [] := by
    rintro rfl
    rw [List.append_nil] at hdeclared
    have hread := statementWithin_complete ((used ++ left).length + 1) hdeclared (by simp) last left
    cases congrArg Reply.outcome ((recovering_of_error h).symm.trans hread)
  obtain rfl : before = used ++ more.dropLast := by
    rw [← List.dropLast_append_of_ne_nil hmore, hused, List.dropLast_concat]
  exact ⟨used, rfl, fun u hu => hbefore u (List.mem_append_left _ hu), (hp.predictive.stops hr).2⟩

/-- A declaration with a word of its own leaves what recovery from the word does, if it does not
break off where another statement starts. -/
private theorem leaves_resume (ht : t.kind = .keyword .varWord ∨ t.kind = .keyword .printWord)
    (hfirst : ∀ e ∈ (statementWithin (rest.length + 1) last (t :: rest)).reported,
      startsStatement e.token.kind = false) :
    (statementWithin (rest.length + 1) last (t :: rest)).rest = resume (t :: rest) := by
  have hend : t.kind ≠ .endOfInput := by rcases ht with ht | ht <;> simp [ht]
  have hsemicolon : t.kind ≠ .symbol .semicolon := by rcases ht with ht | ht <;> simp [ht]
  rcases hr : statement (rest.length + 1) (statementWithin rest.length) last (t :: rest) with
    ⟨reported, left, e | s⟩
  · have hitem : statementWithin (rest.length + 1) last (t :: rest) = _ := recovering_of_error hr
    obtain ⟨used, rfl, hused, htoken⟩ := inner_of_error ht hr
    have hleft : ∀ u ∈ left.head?, startsStatement u.kind = false := by
      intro u hu
      have he := hfirst e (by rw [hitem]; simp)
      rwa [htoken, Option.mem_def.mp hu] at he
    rw [hitem, resume_inner hend hsemicolon hused hleft]
  · have hitem : statementWithin (rest.length + 1) last (t :: rest) = _ := recovering_of_ok hr
    obtain ⟨p, hp, hstatement⟩ := statement_of_word ht
    rw [hstatement] at hr
    obtain ⟨used, rfl, hdeclared⟩ := hp.sound hr
    obtain ⟨before, closing, rfl, hc, hbefore⟩ := inner_of_word hdeclared ht
    rw [hitem, List.append_assoc, List.singleton_append,
      resume_inner hend hsemicolon hbefore (by simp [hc, startsStatement])]
    simp [resume, hc]

end Words

section Tokens
variable {earlier later whole part : List Token} {opened : Bool} {e : SyntaxError}

/-- The error is among those of the token list. -/
def HasError (tokens : List Token) (e : SyntaxError) : Prop :=
  ∃ errors, ofTokens tokens = .error errors ∧ e ∈ errors

theorem hasError_iff :
    HasError tokens e ↔ e ∈ (statementsOf (lastToken tokens) tokens).reported := by
  constructor
  · rintro ⟨errors, herror, he⟩
    rwa [(ofTokens_eq_error_iff.mp herror).1]
  · exact fun he => ⟨_, ofTokens_eq_error_iff.mpr ⟨rfl, List.ne_nil_of_mem he⟩, he⟩

/-- The tokens end inside a statement. At their end more is missing than a closing brace. -/
def BreaksOff (tokens : List Token) : Prop :=
  ∃ e, HasError tokens e ∧ e.token.kind = .endOfInput ∧ e.fault ≠ .unclosedBlock

/-- A closing brace is missing at the end of the tokens. -/
def LeavesOpen (tokens : List Token) : Prop :=
  ∃ e, HasError tokens e ∧ e.token.kind = .endOfInput ∧ e.fault = .unclosedBlock

theorem breaksOff_iff (tokens : List Token) : BreaksOff tokens ↔
    breaksOff (statementsOf (lastToken tokens) tokens).reported = true := by
  simp [BreaksOff, breaksOff, hasError_iff]

theorem leavesOpen_iff (tokens : List Token) : LeavesOpen tokens ↔
    leavesOpen (statementsOf (lastToken tokens) tokens).reported = true := by
  simp [LeavesOpen, leavesOpen, hasError_iff]

/-- The errors of the statement that the tokens start with. -/
def firstErrors (tokens : List Token) : List SyntaxError :=
  (statementWithin tokens.length (lastToken tokens) tokens).reported

/-- The errors found before a closing brace comes where a statement should start and no block is
open. -/
def errorsBeforeStray (tokens : List Token) : List SyntaxError :=
  (blockBody (lastToken tokens) tokens).reported

/-- What is left of the tokens at a closing brace that closes no block, or else at the end. -/
def fromStray (tokens : List Token) : List Token :=
  (blockBody (lastToken tokens) tokens).rest

/-- Some tokens are part of a longer list. Their own errors, apart from some, are errors of the list
too: those before a closing brace that closes nothing, and all of them if there is no such brace or
if it can close no block that is open in front of the part. -/
structure Finds (apart : List SyntaxError) (opened : Prop) (whole part : List Token) : Prop where
  early : ∀ e ∈ errorsBeforeStray part, HasError part e ∧ (e ∈ apart ∨ HasError whole e)
  all : body (fromStray part) = [] ∨ ¬ opened → ∀ e, HasError part e → e ∈ apart ∨ HasError whole e

private theorem errors_split (tokens : List Token) :
    (statementsOf (lastToken tokens) tokens).reported =
    errorsBeforeStray tokens ++ (statementsOf (lastToken tokens) (fromStray tokens)).reported :=
  statementsOf_eq ▸ statementsUpTo_resumed (by simp) (lastToken tokens) tokens

private theorem hasError_of_before (he : e ∈ errorsBeforeStray tokens) : HasError tokens e := by
  rw [hasError_iff, errors_split]
  exact List.mem_append_left _ he

/-- Without a closing brace that closes nothing, all errors come before one. -/
private theorem errors_eq (h : body (fromStray tokens) = []) :
    (statementsOf (lastToken tokens) tokens).reported = errorsBeforeStray tokens := by
  have hend : AtStop (fun _ => false) (fromStray tokens) := by
    cases hs : fromStray tokens with
    | nil => simp [AtStop]
    | cons t rest => simpa [hs, body, List.takeWhile_cons, AtStop] using h
  rw [errors_split]
  exact (congrArg (_ ++ Reply.reported ·) (statementsUpTo_stop hend)).trans (List.append_nil _)

private theorem statementsOf_rest (htokens : ∀ t ∈ tokens, t.kind ≠ .endOfInput) :
    (statementsOf last tokens).rest = [] := by
  obtain ⟨errors, program, ending, hrounds⟩ := exists_rounds last tokens
  rw [hrounds.statementsOf]
  obtain ⟨used, -, -, rfl, -, -⟩ := (statementsUpTo_blames _).tally hrounds.statementsOf
  exact nil_of_atStop (fun t ht => htokens t (List.mem_append_right used ht)) hrounds.atStop

/-- The end of a part is that of the whole, and where it is empty, no token stands for its end. -/
private theorem statementsUpTo_of_suffix (h : part <:+ whole) :
    statementsUpTo stop (lastToken whole) part =
    statementsUpTo stop (lastToken part) part := by
  obtain ⟨before, rfl⟩ := h
  by_cases hpart : part = []
  · subst hpart
    have hstops : AtStop stop [] := by simp [AtStop]
    rw [statementsUpTo_stop hstops, statementsUpTo_stop hstops]
  · rw [lastToken_append before hpart]

/-- A part is read inside the whole as it is alone, or as in a block. -/
theorem Finds.of_sublist (hpart : part <:+ whole)
    (hread : (statementsUpTo (if opened then (· = .symbol .rightBrace) else fun _ => false)
      (lastToken whole) part).reported.Sublist (statementsOf (lastToken whole) whole).reported) :
    Finds [] (opened = true) whole part := by
  rw [statementsUpTo_of_suffix hpart] at hread
  have hearly : ∀ e ∈ errorsBeforeStray part, HasError whole e := by
    intro e he
    rw [hasError_iff]
    refine hread.subset ?_
    cases opened with
    | true => exact he
    | false => exact hasError_iff.mp (hasError_of_before he)
  refine ⟨fun e he => ⟨hasError_of_before he, .inr (hearly e he)⟩, ?_⟩
  rintro (hnone | hclosed) e he
  · rw [hasError_iff, errors_eq hnone] at he
    exact .inr (hearly e he)
  · rw [if_neg hclosed] at hread
    exact .inr (hasError_iff.mpr (hread.subset (hasError_iff.mp he)))

/-- Where the first declaration leaves what recovery from its word does, the statements behind it
are read as they are alone. -/
private theorem statementsUpTo_first (stop : TokenKind → Bool)
    (hstop : ∀ kind, stop kind = true → kind = .symbol .rightBrace)
    (hlater : ∃ t ∈ later.head?, t.kind = .keyword .varWord ∨ t.kind = .keyword .printWord)
    (hfirst : ∀ e ∈ firstErrors later, startsStatement e.token.kind = false) :
    (statementsUpTo stop (lastToken later) later).reported = firstErrors later ++
        (statementsUpTo stop (lastToken (resume later)) (resume later)).reported ∧
      (statementsUpTo stop (lastToken later) later).rest =
        (statementsUpTo stop (lastToken (resume later)) (resume later)).rest := by
  obtain ⟨word, htaken, hword⟩ := hlater
  obtain ⟨rest, rfl⟩ := List.head?_eq_some_iff.mp htaken
  have hgoes : ¬ AtStop stop (word :: rest) := by
    intro hat
    have hkind := (hat word rfl).imp_right (hstop _)
    rcases hword with hw | hw <;> simp [hw] at hkind
  obtain ⟨errors, left, found, hitem⟩ :=
    statementWithin_ok (rest.length + 1) (lastToken (word :: rest)) (word :: rest)
  have hleft := leaves_resume hword hfirst
  have herrors : firstErrors (word :: rest) = errors := congrArg Reply.reported hitem
  rw [hitem] at hleft
  obtain rfl : left = resume (word :: rest) := hleft
  rw [statementsUpTo_next hgoes hitem, herrors,
    statementsUpTo_of_suffix (resume_suffix (word :: rest))]
  exact ⟨rfl, rfl⟩

theorem Finds.of_resume {opened : Prop}
    (hlater : ∃ t ∈ later.head?, t.kind = .keyword .varWord ∨ t.kind = .keyword .printWord)
    (hfirst : ∀ e ∈ firstErrors later, startsStatement e.token.kind = false)
    (h : Finds [] opened whole (resume later)) : Finds (firstErrors later) opened whole later := by
  obtain ⟨hbefore, hstray⟩ :=
    statementsUpTo_first (· = .symbol .rightBrace) (fun kind => of_decide_eq_true) hlater hfirst
  obtain ⟨hreported, -⟩ := statementsUpTo_first (fun _ => false) (by simp) hlater hfirst
  constructor
  · intro e he
    refine ⟨hasError_of_before he, ?_⟩
    rw [errorsBeforeStray, blockBody, hbefore, List.mem_append] at he
    exact he.imp_right fun he => (h.early e he).2.resolve_left List.not_mem_nil
  · intro hproviso e he
    rw [fromStray, blockBody, hstray] at hproviso
    rw [hasError_iff, statementsOf_eq, hreported, List.mem_append] at he
    refine he.imp_right fun he => ?_
    exact (h.all hproviso e (hasError_iff.mpr he)).resolve_left List.not_mem_nil

/-- Recovery does not hide the errors of later statements. Tokens that break off inside a statement
have the word behind them blamed, and what recovery leaves from there is read like other later
tokens. So only errors of the declaration with that word are lost, if it does not itself break off
at a word that starts a statement. Where blocks are left open, a closing brace that closes nothing
in the later tokens closes one of them, so the errors behind it may be others. -/
theorem later_errors_found (hearlier : ∀ t ∈ earlier, t.kind ≠ .endOfInput)
    (hlater : ∃ t ∈ later.head?, t.kind = .keyword .varWord ∨ t.kind = .keyword .printWord) :
    (¬ BreaksOff earlier → Finds [] (LeavesOpen earlier) (earlier ++ later) later) ∧
      (BreaksOff earlier →
        Finds [] (LeavesOpen earlier) (earlier ++ later) (resume later) ∧
          ((∀ e ∈ firstErrors later, startsStatement e.token.kind = false) →
            Finds (firstErrors later) (LeavesOpen earlier) (earlier ++ later) later)) := by
  obtain ⟨word, htaken, hword⟩ := id hlater
  obtain ⟨rest, rfl⟩ := List.head?_eq_some_iff.mp htaken
  have hstarts : startsStatement word.kind = true := by
    rcases hword with hw | hw <;> rw [hw] <;> rfl
  obtain ⟨errors, left, program, hread, -⟩ :=
    statementsUpTo_ok (fun _ => false) (lastToken earlier) earlier
  obtain rfl : left = [] := by
    rw [← statementsOf_rest hearlier, statementsOf_eq, hread]
  have hloop := statementsUpTo_append (lastToken (earlier ++ word :: rest)) rest hstarts rfl
    (by simp) hearlier hread
  have hbreaks := breaksOff_iff earlier
  have hopen := leavesOpen_iff earlier
  rw [statementsOf_eq, hread] at hbreaks hopen
  rw [propext hopen]
  refine ⟨fun hwhole => ?_, fun hends => ?_⟩
  · rw [if_neg (hbreaks.not.mp hwhole)] at hloop
    exact .of_sublist (List.suffix_append _ _) hloop
  · rw [if_pos (hbreaks.mp hends)] at hloop
    have hpart : resume (word :: rest) <:+ earlier ++ word :: rest :=
      (resume_suffix _).trans (List.suffix_append _ _)
    have hfinds := Finds.of_sublist hpart hloop
    exact ⟨hfinds, fun hfirst => hfinds.of_resume hlater hfirst⟩

/-- A declaration without a name behind an open block, and one behind an open block that breaks off
in a print statement. There only the declaration with the blamed word loses an error. -/
theorem later_errors_found_open :
    let opening : Token := ⟨.symbol .leftBrace, "\x7b", .nil, 1⟩
    let word (line : Nat) : Token := ⟨.keyword .varWord, "var", .nil, line⟩
    let mark : Token := ⟨.symbol .equal, "=", .nil, 2⟩
    let semicolon (line : Nat) : Token := ⟨.symbol .semicolon, ";", .nil, line⟩
    let closing : Token := ⟨.symbol .rightBrace, "\x7d", .nil, 4⟩
    let broken : List Token := [opening, ⟨.keyword .printWord, "print", .nil, 1⟩]
    let later : List Token := [word 2, mark, semicolon 2, word 3, semicolon 3]
    (¬ BreaksOff [opening] ∧ LeavesOpen [opening] ∧
      HasError ([opening] ++ [word 3, semicolon 3, closing]) ⟨.expectedVariableName, semicolon 3⟩) ∧
    BreaksOff broken ∧ LeavesOpen broken ∧
      firstErrors later = [⟨.expectedVariableName, mark⟩] ∧
      ¬ HasError (broken ++ later) ⟨.expectedVariableName, mark⟩ ∧
      HasError (broken ++ later) ⟨.expectedVariableName, semicolon 3⟩ := by
  intro opening word mark semicolon closing broken later
  have hwhole : ¬ BreaksOff [opening] := by
    rw [breaksOff_iff]
    decide +kernel
  have hbroken : BreaksOff broken := by
    rw [breaksOff_iff]
    decide +kernel
  have hfirst : firstErrors later = [⟨.expectedVariableName, mark⟩] := by decide +kernel
  have hopening : ∀ t ∈ [opening], t.kind ≠ .endOfInput := by decide
  have htokens : ∀ t ∈ broken, t.kind ≠ .endOfInput := by decide
  have hword : ∃ t ∈ [word 3, semicolon 3, closing].head?,
      t.kind = .keyword .varWord ∨ t.kind = .keyword .printWord := ⟨_, rfl, .inl rfl⟩
  have hlater : ∃ t ∈ later.head?, t.kind = .keyword .varWord ∨ t.kind = .keyword .printWord :=
    ⟨_, rfl, .inl rfl⟩
  have hfound := (later_errors_found hopening hword).1 hwhole
  have hlost := ((later_errors_found htokens hlater).2 hbroken).2 (by rw [hfirst]; decide)
  refine ⟨⟨hwhole, ?_, ?_⟩, hbroken, ?_, hfirst, ?_, ?_⟩
  · rw [leavesOpen_iff]
    decide +kernel
  · exact (hfound.early _ (by decide +kernel)).2.resolve_left List.not_mem_nil
  · rw [leavesOpen_iff]
    decide +kernel
  · rw [hasError_iff]
    decide +kernel
  · exact (hlost.early _ (by decide +kernel)).2.resolve_left (by rw [hfirst]; decide)

/-- An error of later tokens is lost behind others. -/
def Lost (earlier later : List Token) (e : SyntaxError) : Prop :=
  (∀ t ∈ earlier, t.kind ≠ .endOfInput) ∧
    (∃ t ∈ later.head?, t.kind = .keyword .varWord ∨ t.kind = .keyword .printWord) ∧
    HasError later e ∧ ¬ HasError (earlier ++ later) e

/-- What is no statement where no block is open closes one that the tokens before it opened. Behind
tokens that break off, the declaration with the blamed word is skipped. If it breaks off at a word
itself, recovery passes over that word in the later tokens alone, and not behind the others. -/
theorem later_errors_lost :
    let opening : Token := ⟨.symbol .leftBrace, "\x7b", .nil, 1⟩
    let closing : Token := ⟨.symbol .rightBrace, "\x7d", .nil, 1⟩
    let declaring : Token := ⟨.keyword .varWord, "var", .nil, 1⟩
    let printing : Token := ⟨.keyword .printWord, "print", .nil, 1⟩
    let value : Token := ⟨.keyword .nilWord, "nil", .nil, 1⟩
    let semicolon : Token := ⟨.symbol .semicolon, ";", .nil, 1⟩
    Lost [opening] [printing, value, semicolon, closing] ⟨.expectedExpression, closing⟩ ∧
      Lost [printing] [declaring, semicolon] ⟨.expectedVariableName, semicolon⟩ ∧
      Lost [printing] [declaring, declaring, printing, value, closing]
        ⟨.unfinishedPrint, closing⟩ := by
  intro opening closing declaring printing value semicolon
  refine ⟨⟨by decide, ⟨_, rfl, .inr rfl⟩, ?_, ?_⟩, ⟨by decide, ⟨_, rfl, .inl rfl⟩, ?_, ?_⟩,
    ⟨by decide, ⟨_, rfl, .inl rfl⟩, ?_, ?_⟩⟩ <;> rw [hasError_iff] <;> decide +kernel

end Tokens
end BlockScript.Program
