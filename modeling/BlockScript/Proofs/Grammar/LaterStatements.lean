import BlockScript.Proofs.Grammar.Blame
import BlockScript.Proofs.Grammar.EndOfInput

/-!
Statements behind other tokens. Where these do not break off inside a statement, later statements
are read as they are alone, or in a block if one is left open. Where they do, the word that starts
the later statements is blamed, and reading goes on where recovery leads from it.
-/
namespace BlockScript.Program
open BlockScript.Program.Parser Grammar

variable {last final t : Token} {tokens rest left more : List Token}
  {errors others : List SyntaxError} {found : Option Stmt} {program : List Stmt}
  {stop stop' : TokenKind → Bool} {n k : Nat}

section Loop

/-- Nothing changes if the loop stops earlier and another one goes on there. -/
theorem statementsUpTo_resumed (hstop : ∀ kind, stop kind = true → stop' kind = true)
    (last : Token) (tokens : List Token) :
    (statementsUpTo stop last tokens).reported = (statementsUpTo stop' last tokens).reported ++
      (statementsUpTo stop last (statementsUpTo stop' last tokens).rest).reported := by
  induction tokens using rounds_induction stop' last with
  | stops tokens h => rw [statementsUpTo_stop h, List.nil_append]
  | next t rest errors left found h hitem ih =>
    have hgoes : ¬ AtStop stop (t :: rest) := fun hs => h fun u hu => (hs u hu).imp_right (hstop _)
    rw [statementsUpTo_next hgoes hitem, statementsUpTo_next h hitem, ih, List.append_assoc]

/-- The errors of the first item are among those of the loop. -/
private theorem item_sublist (h : ¬ AtStop stop (t :: rest)) :
    (statementWithin (rest.length + 1) last (t :: rest)).reported.Sublist
      (statementsUpTo stop last (t :: rest)).reported := by
  obtain ⟨errors, left, found, hitem⟩ := statementWithin_ok (rest.length + 1) last (t :: rest)
  rw [statementsUpTo_next h hitem, hitem]
  exact List.sublist_append_left _ _

end Loop

section Items

theorem nil_of_atStop (htokens : ∀ t ∈ tokens, t.kind ≠ .endOfInput)
    (h : AtStop (fun _ => false) tokens) : tokens = [] := by
  cases tokens with
  | nil => rfl
  | cons t rest => simpa [htokens t] using h t rfl

/-- A block has statements up to a closing brace. -/
def blockBody : Parser (List Stmt) := statementsUpTo (· = .symbol .rightBrace)

/-- A block reports what its statements do, and that it is left open if the input ends there. -/
private theorem block_reported (last : Token) (ht : t.kind = .symbol .leftBrace)
    (hn : rest.length ≤ n) :
    (statementWithin (n + 1) last (t :: rest)).reported = (blockBody last rest).reported ∧
        ¬ AtStop (fun _ => false) (blockBody last rest).rest ∨
      (statementWithin (n + 1) last (t :: rest)).reported = (blockBody last rest).reported ++
          [⟨.unclosedBlock, (blockBody last rest).rest.head?.getD last⟩] ∧
        AtStop (fun _ => false) (blockBody last rest).rest := by
  have hstatement : statement (n + 1) (statementWithin n) last (t :: rest) =
      block (n + 1) (statementWithin n) last rest :=
    (branch_of_other (by simp [ht])).trans <| (branch_of_other (by simp [ht])).trans <|
      branch_of_next ht
  obtain ⟨errors, left, body, hbody, hend⟩ := statementsUpTo_ok (· = .symbol .rightBrace) last rest
  rw [show blockBody last rest = ⟨errors, left, .ok body⟩ from hbody]
  rw [← statementsUpTo_eq hn (Nat.le_succ_of_le hn)] at hbody
  rcases next_cases (·.kind = .symbol .rightBrace) left with ⟨closing, more, rfl, hc⟩ | hother
  · have hblock : block (n + 1) (statementWithin n) last rest = ⟨errors, more, .ok (.block body)⟩ :=
      closed_eq_ok_iff.mpr ⟨body, closing, hbody, hc, rfl⟩
    rw [← hstatement] at hblock
    exact .inl ⟨congrArg Reply.reported (recovering_of_ok hblock), by simp [AtStop, hc]⟩
  · have hblock : block (n + 1) (statementWithin n) last rest =
        ⟨errors ++ [], left, .error ⟨.unclosedBlock, left.head?.getD last⟩⟩ :=
      bind_of_ok hbody (bind_of_error (take?_of_other (by simpa using hother)))
    rw [List.append_nil, ← hstatement] at hblock
    refine .inr ⟨congrArg Reply.reported (recovering_of_error hblock), fun u hu => ?_⟩
    exact .inl ((hend u hu).resolve_right (by simpa using hother u hu))

private theorem blockBody_sublist (last : Token) (ht : t.kind = .symbol .leftBrace)
    (hn : rest.length ≤ n) :
    (blockBody last rest).reported.Sublist (statementWithin (n + 1) last (t :: rest)).reported := by
  rcases block_reported last ht hn with ⟨h, -⟩ | ⟨h, -⟩
  · rw [h]
  · rw [h]
    exact List.sublist_append_left _ _

/-- What follows the word of a declaration or a print statement has a parser of the logic. -/
theorem statement_of_word (ht : t.kind = .keyword .varWord ∨ t.kind = .keyword .printWord) :
    ∃ p : Parser Stmt, (Reads p fun s used marks => Declaration (t :: used) s marks) ∧
      ∀ bound item last rest, statement bound item last (t :: rest) = p last rest := by
  rcases ht with hvar | hprint
  · exact ⟨_, declaration_reads hvar, fun _ _ _ _ => branch_of_next hvar⟩
  · refine ⟨_, print_reads hprint, fun _ _ _ _ => ?_⟩
    exact (branch_of_other (by simp [hprint])).trans (branch_of_next hprint)

/-- So has every statement that is no block. -/
private theorem statement_of_other (ht : t.kind ≠ .symbol .leftBrace) :
    ∃ (p : Parser Stmt) (L : Stmt → List Token → List SyntaxError → Prop) (head : List Token),
      Reads p L ∧ head ⊆ [t] ∧
        ∀ bound item last rest, statement bound item last (t :: rest) = p last (head ++ rest) := by
  by_cases hword : t.kind = .keyword .varWord ∨ t.kind = .keyword .printWord
  · obtain ⟨p, hp, hstatement⟩ := statement_of_word hword
    exact ⟨p, _, [], hp, List.nil_subset _, hstatement⟩
  · obtain ⟨hvar, hprint⟩ := not_or.mp hword
    refine ⟨_, _, [t], evaluate_reads, List.Subset.refl _, fun _ _ _ _ => ?_⟩
    refine (branch_of_other (by simpa using hvar)).trans ?_
    exact (branch_of_other (by simpa using hprint)).trans (branch_of_other (by simpa using ht))

/-- A statement that breaks off at the end of the tokens breaks off in front of a boundary too. -/
private theorem statement_of_end {next : Token} {p : Parser Stmt}
    {L : Stmt → List Token → List SyntaxError → Prop} {head : List Token} {e : SyntaxError}
    (hp : Reads p L)
    (hstatement : ∀ bound item last rest,
      statement bound item last (t :: rest) = p last (head ++ rest))
    (h : p last (head ++ rest) = ⟨errors, [], .error e⟩) (hnext : Boundary next.kind) :
    ∃ reported e',
      p final (head ++ rest ++ next :: more) = ⟨reported, next :: more, .error e'⟩ := by
  have hends := hp.endsAt final (head ++ rest) more hnext
  -- Had it not come to the end of the tokens, it would not matter what stands for the end.
  have hmoves : Moves True id (Stmt.mapTokens id) (statement (rest.length + 1)
      (statementWithin rest.length)) (statement (rest.length + 1) (statementWithin rest.length))
      next (t :: rest) := statement_moves_within (Nat.le_refl _) (Nat.le_refl _)
  have hreply := hmoves.reply last []
  rw [Reply.moved_id Stmt.mapTokens_id, List.map_id, List.append_nil, hstatement, hstatement, h]
    at hreply
  rcases hr : p next (head ++ rest) with ⟨reported, behind, outcome⟩
  rw [hr] at hends hreply
  have hinside : ¬ Reply.Inside True ⟨reported, behind, outcome⟩ := by
    intro hinside
    have hsame := hreply (.inr hinside)
    rw [List.append_nil] at hsame
    cases hsame
    rcases hinside with hleft | ⟨-, a, ha⟩
    · exact hleft rfl
    · cases ha
  obtain ⟨hbehind, hok⟩ := not_or.mp hinside
  obtain rfl : behind = [] := not_not.mp hbehind
  cases outcome with
  | ok a => exact absurd ⟨trivial, a, rfl⟩ hok
  | error e' => exact ⟨reported, e', hends⟩

/-- Some statement breaks off at the end. What is found there is more than a block left open. -/
def breaksOff (errors : List SyntaxError) : Bool :=
  errors.any fun e => e.token.kind = .endOfInput ∧ e.fault ≠ .unclosedBlock

/-- Some block is left open at the end. -/
def leavesOpen (errors : List SyntaxError) : Bool :=
  errors.any fun e => e.token.kind = .endOfInput ∧ e.fault = .unclosedBlock

private theorem breaksOff_append (h : ∀ e ∈ errors, e.token.kind ≠ .endOfInput) :
    breaksOff (errors ++ others) = breaksOff others := by
  have hnone : breaksOff errors = false := by
    simpa [breaksOff] using fun e he hend => absurd hend (h e he)
  rw [breaksOff, List.any_append, ← breaksOff, hnone, Bool.false_or, breaksOff]

private theorem leavesOpen_append (h : ∀ e ∈ errors, e.token.kind ≠ .endOfInput) :
    leavesOpen (errors ++ others) = leavesOpen others := by
  have hnone : leavesOpen errors = false := by
    simpa [leavesOpen] using fun e he hend => absurd hend (h e he)
  rw [leavesOpen, List.any_append, ← leavesOpen, hnone, Bool.false_or, leavesOpen]

/-- Nothing is left behind an item that reports an error at the end. -/
private theorem left_of_end (htokens : ∀ u ∈ tokens, u.kind ≠ .endOfInput)
    (hitem : statementWithin n last tokens = ⟨errors, left, .ok found⟩)
    (hend : ¬ ∀ e ∈ errors, e.token.kind ≠ .endOfInput) : left = [] := by
  obtain ⟨used, inside, ending, rfl, rfl, htally⟩ := (statementWithin_blames n).tally hitem
  cases ending with
  | nil => exact absurd (by simpa using fun e => htally.not_end_of_mem_inside) hend
  | cons e ending =>
    refine nil_of_atStop (fun u hu => htokens u (List.mem_append_right used hu)) ?_
    exact (htally.atEnd e List.mem_cons_self).1

/-- Where a block reports an error at the end, its statements go on to the end. -/
private theorem block_left_open (ht : t.kind = .symbol .leftBrace)
    (hrest : ∀ u ∈ rest, u.kind ≠ .endOfInput)
    (hitem : statementWithin (rest.length + 1) last (t :: rest) = ⟨errors, left, .ok found⟩)
    (hend : ¬ ∀ e ∈ errors, e.token.kind ≠ .endOfInput) :
    (blockBody last rest).rest = [] ∧
      errors = (blockBody last rest).reported ++ [⟨.unclosedBlock, last⟩] := by
  have hblock := block_reported last ht (Nat.le_refl rest.length)
  rw [hitem] at hblock
  rcases hbody : blockBody last rest with ⟨reported, behind, outcome⟩
  rw [hbody] at hblock
  obtain ⟨used, inside, ending, rfl, rfl, htally⟩ := (statementsUpTo_blames _).tally hbody
  rcases hblock with ⟨rfl, hopen⟩ | ⟨rfl, hopen⟩
  · have hnone : ending = [] := by
      cases ending with
      | nil => rfl
      | cons e ending => exact absurd (htally.atEnd e List.mem_cons_self).1 hopen
    subst hnone
    exact absurd (by simpa using fun e => htally.not_end_of_mem_inside) hend
  · have hbehind : behind = [] :=
      nil_of_atStop (fun u hu => hrest u (List.mem_append_right used hu)) hopen
    subst hbehind
    exact ⟨rfl, rfl⟩

/-- Any other statement with an error at the end breaks off there. With a word behind it that starts
a statement it breaks off in front of the word, and recovery drops that. -/
private theorem other_breaks_off {next : Token} (ht : t.kind ≠ .symbol .leftBrace)
    (htokens : ∀ u ∈ t :: rest, u.kind ≠ .endOfInput)
    (hitem : statementWithin (rest.length + 1) last (t :: rest) = ⟨errors, left, .ok found⟩)
    (hend : ¬ ∀ e ∈ errors, e.token.kind ≠ .endOfInput) (hnext : Boundary next.kind) :
    breaksOff errors = true ∧ leavesOpen errors = false ∧ ∃ reported,
      statementWithin (k + 1) final (t :: rest ++ next :: more) =
        ⟨reported, resume (next :: more), .ok none⟩ := by
  obtain ⟨p, L, head, hp, hhead, hstatement⟩ := statement_of_other ht
  rcases hr : p last (head ++ rest) with ⟨reported, behind, e | s⟩
  all_goals
    obtain ⟨used, inside, ending, hused, rfl, htally⟩ := hp.blames.tally hr
    obtain rfl : ending = [] := by simpa using htally.few
    rw [List.append_nil] at hr
    have hinside : ∀ e ∈ inside, e.token.kind ≠ .endOfInput :=
      fun _ => htally.not_end_of_mem_inside
  · cases hitem.symm.trans (recovering_of_error ((hstatement _ _ _ _).trans hr))
    obtain ⟨htoken, hfault⟩ := hp.blames.stops hr
    have hat : e.token.kind = .endOfInput := by
      by_contra hne
      exact hend (List.forall_mem_append.mpr ⟨hinside, List.forall_mem_singleton.mpr hne⟩)
    have hbehind : behind = [] := by
      cases behind with
      | nil => rfl
      | cons u behind =>
        obtain rfl : e.token = u := htoken
        have hmem : e.token ∈ head ++ rest := by simp [hused]
        rcases List.mem_append.mp hmem with hu | hu
        · exact absurd hat (htokens _ (by simp [List.mem_singleton.mp (hhead hu)]))
        · exact absurd hat (htokens _ (List.mem_cons_of_mem t hu))
    subst hbehind
    have hne : e.fault ≠ .unclosedBlock := fun h => Nat.lt_irrefl 0 (hfault h)
    rw [breaksOff_append hinside, leavesOpen_append hinside]
    obtain ⟨others, e', hbreaks⟩ := statement_of_end hp hstatement hr hnext
    rw [List.append_assoc, ← hstatement (k + 1) (statementWithin k)] at hbreaks
    exact ⟨by simp [breaksOff, hat, hne], by simp [leavesOpen, hne], _,
      recovering_of_error hbreaks⟩
  · cases hitem.symm.trans (recovering_of_ok ((hstatement _ _ _ _).trans hr))
    exact absurd hinside hend

end Items

section Loop

/-- Behind tokens that break off inside a statement the word that starts the later ones is blamed
and dropped, and reading goes on where recovery leads. Otherwise the later tokens are read from the
word on. They are read as they are alone, or as in a block if one is left open. -/
theorem statementsUpTo_append (final : Token) {next : Token} (more : List Token)
    (hnext : startsStatement next.kind = true)
    (hlast : last.kind = .endOfInput)
    (hstop : ∀ kind, stop kind = true → kind = .symbol .rightBrace)
    (htokens : ∀ t ∈ tokens, t.kind ≠ .endOfInput)
    (hread : statementsUpTo stop last tokens = ⟨errors, [], .ok program⟩) :
    (statementsUpTo (if leavesOpen errors then (· = .symbol .rightBrace) else stop) final
      (if breaksOff errors then resume (next :: more) else next :: more)).reported.Sublist
        (statementsUpTo stop final (tokens ++ next :: more)).reported := by
  induction hn : tokens.length using Nat.strongRecOn generalizing tokens stop errors program with
  | ind n ih =>
    rcases atStop_or_next stop tokens with hstops | ⟨t, rest, rfl, hstops⟩
    · cases (statementsUpTo_stop hstops).symm.trans hread
      exact List.Sublist.refl _
    have ht := kind_ne_end_of_not_atStop hstops
    have hgoes : ¬ AtStop stop (t :: (rest ++ next :: more)) := hstops
    obtain ⟨before, left, found, hitem⟩ := statementWithin_ok (rest.length + 1) last (t :: rest)
    obtain ⟨hsuffix, hleft⟩ := statementWithin_leaves ht (Nat.lt_succ_self _) hitem
    obtain ⟨after, behind, others, hmore, -⟩ := statementsUpTo_ok stop last left
    rw [statementsUpTo_next hstops hitem, hmore] at hread
    cases hread
    rw [List.length_cons] at hn
    by_cases hinside : ∀ e ∈ before, e.token.kind ≠ .endOfInput
    · -- The item is read as before, and the later statements behind it.
      have happend : statementWithin ((rest ++ next :: more).length + 1) final
          (t :: rest ++ next :: more) = ⟨before, left ++ next :: more, .ok found⟩ := by
        refine statementWithin_append hlast (Nat.le_refl _) (by simp) hitem hinside ?_
        exact .inr (.inr fun u hu => .inr (by cases hu; exact hnext))
      have hbehind := ih left.length (by omega) hstop (fun u hu => htokens u (hsuffix.mem hu))
        hmore rfl
      rw [List.cons_append, statementsUpTo_next hgoes happend, leavesOpen_append hinside,
        breaksOff_append hinside]
      exact hbehind.trans (List.sublist_append_right _ _)
    obtain rfl := left_of_end htokens hitem hinside
    cases (statementsUpTo_stop (by simp [AtStop])).symm.trans hmore
    rw [List.append_nil, List.cons_append]
    by_cases hbrace : t.kind = .symbol .leftBrace
    · -- The item is a block that is left open, and the later statements belong to it.
      have hrest := fun u hu => htokens u (List.mem_cons_of_mem t hu)
      obtain ⟨hend, rfl⟩ := block_left_open hbrace hrest hitem hinside
      obtain ⟨reported, ending, body, hbody, -⟩ :=
        statementsUpTo_ok (· = .symbol .rightBrace) last rest
      rw [blockBody, hbody] at hend ⊢
      obtain rfl : ending = [] := hend
      have hinner := ih rest.length (by omega) (fun kind => of_decide_eq_true) hrest hbody rfl
      have hopen : leavesOpen (reported ++ [⟨.unclosedBlock, last⟩]) = true := by
        simp [leavesOpen, hlast]
      have hsame : breaksOff (reported ++ [⟨.unclosedBlock, last⟩]) = breaksOff reported := by
        simp [breaksOff]
      rw [ite_self] at hinner
      rw [hopen, if_pos rfl, hsame]
      have hblock := blockBody_sublist final hbrace (Nat.le_refl (rest ++ next :: more).length)
      exact (hinner.trans hblock).trans (item_sublist hgoes)
    · -- The item breaks off, in front of the later statements too.
      obtain ⟨hbreaks, hopen, reported, hnextItem⟩ :=
        other_breaks_off hbrace htokens hitem hinside (.inr hnext)
      rw [hbreaks, hopen, if_pos rfl]
      rw [statementsUpTo_next hgoes hnextItem]
      exact List.sublist_append_right _ _

end Loop
end BlockScript.Program
