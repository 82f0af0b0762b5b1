import BlockScript.Proofs.Grammar.Moving
import BlockScript.Proofs.Grammar.Programs

/-!
Reading statements and programs from moved tokens. After an error reading goes on at the same
place, so the errors and the statements of a program are the same as before, but for their tokens.
-/
namespace BlockScript.Program
open BlockScript.Program.Parser Grammar

section Resume
variable {tokens more : List Token}

theorem resume_suffix (tokens : List Token) : resume tokens <:+ tokens := by
  fun_induction resume tokens with
  | case1 | case2 => exact List.suffix_rfl
  | case3 t rest | case4 t rest => exact List.suffix_cons t rest
  | case5 t rest _ _ _ ih => exact ih.trans (List.suffix_cons t rest)

/-- At least one token is dropped, if it is not the end of input. -/
theorem resume_suffix_tail {t : Token} (ht : t.kind ≠ .endOfInput) (rest : List Token) :
    resume (t :: rest) <:+ rest := by
  rw [resume, if_neg ht]
  split
  · exact List.suffix_rfl
  · split
    · exact List.suffix_rfl
    · exact resume_suffix rest

theorem resume_map {f : Token → Token} (hf : Token.KeepsText f) (tokens : List Token) :
    resume (tokens.map f) = (resume tokens).map f := by
  have hword (rest : List Token) : ((rest.map f).head?.any fun next => startsStatement next.kind) =
      rest.head?.any fun next => startsStatement next.kind := by
    cases rest <;> simp [hf.kind]
  induction tokens with
  | nil => rfl
  | cons t rest ih =>
    rw [List.map_cons, resume, resume, hf.kind, hword, ih]
    simp only [apply_ite (List.map f), List.map_cons]

/-- Where reading goes on after an error in `tokens`, if not in them, is right behind them. -/
def Resumes (tokens more : List Token) : Prop :=
  (∀ t ∈ tokens.getLast?, t.kind = .symbol .semicolon) ∨
    ∀ t ∈ more.head?, t.kind = .endOfInput ∨ startsStatement t.kind = true

theorem Resumes.of_suffix {rest : List Token} (h : Resumes tokens more) (hs : rest <:+ tokens) :
    Resumes rest more := by
  obtain ⟨before, rfl⟩ := hs
  refine h.imp_left fun hlast t ht => hlast t ?_
  rw [List.getLast?_append, Option.mem_def.mp ht]
  rfl

/-- With nothing left to drop, reading goes on at the end of input or at a starting word. -/
private theorem resume_cons_of_resumes {t : Token} (hend : t.kind ≠ .endOfInput)
    (h : ∀ t ∈ more.head?, t.kind = .endOfInput ∨ startsStatement t.kind = true) :
    resume (t :: more) = more := by
  rw [resume, if_neg hend]
  cases more with
  | nil => simp [resume]
  | cons next rest =>
    rcases h next rfl with hnext | hnext
    · simp [resume, hnext, startsStatement]
    · simp [hnext]

/-- Tokens behind do not matter, if some of the own ones are left or reading can go on there. -/
theorem resume_append (hne : tokens ≠ []) (h : resume tokens ≠ [] ∨ Resumes tokens more) :
    resume (tokens ++ more) = resume tokens ++ more := by
  induction tokens with
  | nil => exact absurd rfl hne
  | cons t rest ih =>
    by_cases hend : t.kind = .endOfInput
    · simp [resume, hend]
    by_cases hsemicolon : t.kind = .symbol .semicolon
    · simp [resume, hsemicolon]
    have hresume (rest : List Token) : resume (t :: rest) =
        if rest.head?.any fun next => startsStatement next.kind then rest else resume rest := by
      rw [resume, if_neg hend, if_neg hsemicolon]
    by_cases hrest : rest = []
    · subst hrest
      rw [List.cons_append, List.nil_append, hresume []]
      rcases h with h | h | h
      · exact absurd (hresume []) h
      · exact absurd (h t rfl) hsemicolon
      · exact resume_cons_of_resumes hend h
    · have hhead : (rest ++ more).head? = rest.head? := by
        rw [List.head?_append, Option.or_of_isSome (by simpa using hrest)]
      rw [List.cons_append, hresume, hresume, hhead]
      rw [hresume] at h
      split
      · rfl
      · rename_i hword
        rw [if_neg hword] at h
        exact ih hrest (h.imp_right fun hr => hr.of_suffix (List.suffix_cons t rest))

private theorem resume_moved {f : Token → Token} (hf : Token.KeepsText f)
    (h : more = [] ∨ resume tokens ≠ []) :
    resume (tokens.map f ++ more) = (resume tokens).map f ++ more := by
  rcases h with rfl | h
  · rw [List.append_nil, List.append_nil, resume_map hf]
  · have hne : tokens.map f ≠ [] := by
      rintro hnil
      rw [List.map_eq_nil_iff.mp hnil] at h
      exact h rfl
    rw [← resume_map hf]
    exact resume_append hne (.inl (by rwa [resume_map hf, Ne, List.map_eq_nil_iff]))

end Resume

section Statements
variable {f : Token → Token} {item item' : Parser (Option Stmt)} {last : Token}
  {tokens : List Token} {n m : Nat}

/-- Of moved tokens `item'` reads the statement that `item` reads, and `item` gets on whenever it
succeeds. -/
structure MovesItem (f : Token → Token) (item item' : Parser (Option Stmt)) (last : Token)
    (tokens : List Token) : Prop where
  moves : Moves False f (Option.map (Stmt.mapTokens f)) item item' last tokens
  advances : ∀ t ∈ tokens.head?, t.kind ≠ .endOfInput →
    ∀ found, (item last tokens).outcome = .ok found → (item last tokens).rest.length < tokens.length

theorem Moves.recovering {p q : Parser Stmt} (hf : Token.KeepsText f)
    (h : Moves True f (Stmt.mapTokens f) p q last tokens) :
    MovesItem f (recovering p) (recovering q) last tokens := by
  obtain ⟨hsuffix, -, hshorter, hreply⟩ := h
  rcases hr : p last tokens with ⟨errors, rest, e | s⟩ <;> rw [hr] at hsuffix hshorter hreply
  · refine ⟨⟨?_, ?_, False.elim, ?_⟩, ?_⟩ <;> rw [recovering_of_error hr]
    · exact (resume_suffix rest).trans hsuffix
    · intro e' he
      cases he
    · intro final more hmore
      have hleft : (⟨errors ++ [e], resume rest, .ok none⟩ : Reply (Option Stmt)).Inside False →
          resume rest ≠ [] := fun h => h.resolve_right And.left
      have hrest : resume rest ≠ [] → rest ≠ [] := by
        rintro h rfl
        exact h rfl
      have hq := hreply final more (hmore.imp_right fun h => .inl (hrest (hleft h)))
      refine (recovering_of_error hq).trans ?_
      rw [resume_moved hf (hmore.imp And.left hleft), Reply.moved, List.map_append]
      rfl
    · intro t ht hend _ _
      obtain ⟨more, rfl⟩ := List.head?_eq_some_iff.mp ht
      rcases List.suffix_cons_iff.mp hsuffix with rfl | hmore
      · exact Nat.lt_succ_of_le (resume_suffix_tail hend more).length_le
      · exact Nat.lt_succ_of_le ((resume_suffix rest).trans hmore).length_le
  · refine ⟨⟨?_, ?_, False.elim, ?_⟩, ?_⟩ <;> rw [recovering_of_ok hr]
    · exact hsuffix
    · intro e he
      cases he
    · intro final more hmore
      have hq := hreply final more (hmore.imp_right fun h => .inl (h.resolve_right And.left))
      exact recovering_of_ok hq
    · exact fun _ _ _ _ _ => hshorter trivial s rfl

private theorem declaration_moves (hf : Token.KeepsText f) :
    Moves True f (Stmt.mapTokens f) declaration declaration last tokens := by
  refine .bind (Moves.expect hf).opened fun {_ _ name} _ _ => ?_
  have hdeclare (initial : Option Expr) :
      Stmt.declare (f name) (initial.map (Expr.mapTokens f)) =
        (Stmt.declare name initial).mapTokens f := by
    cases initial <;> rfl
  refine .branch hf (fun t rest _ => ?_) (.closed hf (.pure none) hdeclare)
  exact .closed hf (.map (expression_moves hf _ _) fun _ => rfl) hdeclare

private theorem statements_nil (stop : TokenKind → Bool) (item : Parser (Option Stmt)) (bound : Nat)
    (last : Token) : statements stop item bound last [] = ⟨[], [], .ok []⟩ := by
  cases bound <;> rfl

private theorem stopsAt_eq_false {stop : TokenKind → Bool} {errors : List SyntaxError} {t : Token}
    {rest left : List Token} (h : stopsAt stop last (t :: rest) = ⟨errors, left, .ok false⟩) :
    left = t :: rest ∧ t.kind ≠ .endOfInput := by
  simp only [stopsAt, Reply.mk.injEq, Except.ok.injEq] at h
  obtain ⟨-, rfl, h⟩ := h
  refine ⟨rfl, fun hend => ?_⟩
  simp [hend] at h

theorem statements_moves (hf : Token.KeepsText f) {stop : TokenKind → Bool}
    (hi : ∀ rest : List Token, rest.length ≤ tokens.length → MovesItem f item item' last rest)
    (hn : tokens.length ≤ n) (hm : tokens.length ≤ m) :
    Moves False f (List.map (Stmt.mapTokens f)) (statements stop item n) (statements stop item' m)
      last tokens := by
  refine bounds_induction (motive := fun n m tokens =>
    (∀ rest : List Token, rest.length ≤ tokens.length → MovesItem f item item' last rest) →
      Moves False f (List.map (Stmt.mapTokens f)) (statements stop item n)
        (statements stop item' m) last tokens) ?_ ?_ hn hm hi
  · exact fun n m _ => (Moves.pure []).congr_nil (statements_nil _ _ n _) (statements_nil _ _ m _)
  · intro n m t rest _ _ ih hi
    refine .bind (.stopsAt hf stop) fun {_ _ stopped} hstop _ => ?_
    cases stopped with
    | true => exact .pure []
    | false =>
      obtain ⟨rfl, hend⟩ := stopsAt_eq_false hstop
      have hitem := hi (t :: rest) (Nat.le_refl _)
      refine .bind hitem.moves fun {_ left first} hfirst _ => ?_
      have hleft := hitem.advances t rfl hend first (congrArg Reply.outcome hfirst)
      simp only [hfirst, List.length_cons] at hleft
      refine .map (ih left (by omega) fun behind hbehind => hi behind ?_) fun list => ?_
      · rw [List.length_cons]
        omega
      · cases first <;> simp

theorem statement_moves (hf : Token.KeepsText f)
    (hi : ∀ rest : List Token, rest.length < tokens.length → MovesItem f item item' last rest)
    (hn : tokens.length ≤ n) (hm : tokens.length ≤ m) :
    Moves True f (Stmt.mapTokens f) (statement n item) (statement m item') last tokens := by
  refine .branch hf (fun _ _ _ => declaration_moves hf) ?_
  refine .branch hf (fun _ rest _ => .closed hf (expression_moves hf last rest) fun _ => rfl) ?_
  refine .branch hf (fun t rest htokens => ?_)
    (.closed hf (expression_moves hf last tokens) fun _ => rfl)
  subst htokens
  rw [List.length_cons] at hn hm
  refine .closed hf (statements_moves hf (fun left hleft => hi left ?_) ?_ ?_) fun body => ?_
  · exact Nat.lt_succ_of_le hleft
  · omega
  · omega
  · rw [Stmt.mapTokens, Stmt.mapAll_eq_map]

private theorem statementWithin_nil (bound : Nat) (last : Token) :
    statementWithin bound last [] = ⟨[⟨.expectedExpression, last⟩], [], .ok none⟩ := by
  cases bound <;> rfl

theorem statementWithin_moves (hf : Token.KeepsText f) (hn : tokens.length ≤ n)
    (hm : tokens.length ≤ m) :
    MovesItem f (statementWithin n) (statementWithin m) last tokens := by
  refine bounds_induction (motive := fun n m tokens =>
    MovesItem f (statementWithin n) (statementWithin m) last tokens) ?_ ?_ hn hm
  · intro n m
    refine ⟨?_, fun _ ht => by cases ht⟩
    exact (Moves.recovering hf .fail).moves.congr_nil (statementWithin_nil n last)
      (statementWithin_nil m (f last))
  · intro n m t rest hn hm ih
    refine Moves.recovering hf (statement_moves hf (fun left hleft => ?_) (Nat.succ_le_succ hn)
      (Nat.succ_le_succ hm))
    exact ih left (Nat.le_of_lt_succ hleft)

end Statements

section Programs
variable {f : Token → Token} {last : Token} {tokens : List Token} {n m k l : Nat}

/-- The loop of a program, with bounds of any size. -/
private theorem program_moves (hf : Token.KeepsText f) (hn : tokens.length ≤ n)
    (hm : tokens.length ≤ m) (hk : tokens.length ≤ k) (hl : tokens.length ≤ l) :
    Moves False f (List.map (Stmt.mapTokens f)) (statements (fun _ => false) (statementWithin n) k)
      (statements (fun _ => false) (statementWithin m) l) last tokens :=
  statements_moves hf (fun _ hrest => statementWithin_moves hf (Nat.le_trans hrest hn)
    (Nat.le_trans hrest hm)) hk hl

theorem statementsOf_moves (hf : Token.KeepsText f) (last : Token) (tokens : List Token) :
    Moves False f (List.map (Stmt.mapTokens f)) statementsOf statementsOf last tokens :=
  .of_remaining fun _ hm => program_moves hf (Nat.le_refl _) hm (Nat.le_refl _) hm

/-- Tokens that are changed, the last one too, read as the changed program or give the errors at
changed tokens. -/
theorem ofTokens_map (hf : Token.KeepsText f)
    (hlast : lastToken (tokens.map f) = f (lastToken tokens)) :
    ofTokens (tokens.map f) = ((ofTokens tokens).map (List.map (Stmt.mapTokens f))).mapError
      (List.map (SyntaxError.mapToken f)) := by
  have h := (statementsOf_moves hf (lastToken tokens) tokens).reply (f (lastToken tokens)) []
    (.inl ⟨rfl, rfl⟩)
  rw [List.append_nil] at h
  rw [ofTokens, ofTokens, hlast, h]
  rcases statementsOf (lastToken tokens) tokens with ⟨errors, rest, e | program⟩
  · have happend : (errors ++ [e]).map (SyntaxError.mapToken f) =
        errors.map (SyntaxError.mapToken f) ++ [e.mapToken f] := List.map_append
    exact congrArg Except.error happend.symm
  · cases errors <;> rfl

end Programs

end BlockScript.Program
