import BlockScript.Proofs.Grammar.Expressions

/-!
Reading a program is deriving it. A token list is accepted exactly when the tokens before its end
derive a program, and no token list derives two.
-/
namespace BlockScript.Grammar
open Program Program.Parser

/-- The tokens that count: those before the first end of input. -/
def body (tokens : List Token) : List Token :=
  tokens.takeWhile fun t => decide (t.kind ≠ .endOfInput)

/-- The program ends here or a stopping token is next. -/
def AtStop (stop : TokenKind → Bool) (tokens : List Token) : Prop :=
  ∀ t ∈ tokens.head?, t.kind = .endOfInput ∨ stop t.kind = true

theorem atStop_or_next (stop : TokenKind → Bool) (tokens : List Token) :
    AtStop stop tokens ∨ ∃ t rest, tokens = t :: rest ∧ ¬ AtStop stop (t :: rest) := by
  cases tokens with
  | nil => exact .inl (by simp [AtStop])
  | cons t rest =>
    by_cases hstop : AtStop stop (t :: rest)
    · exact .inl hstop
    · exact .inr ⟨t, rest, rfl, hstop⟩

theorem kind_ne_end_of_not_atStop {stop : TokenKind → Bool} {t : Token} {rest : List Token}
    (h : ¬ AtStop stop (t :: rest)) : t.kind ≠ .endOfInput := by
  rintro ht
  exact h (by simp [AtStop, ht])

section Loop
variable {item : Parser (Option Stmt)} {last : Token} {tokens rest : List Token}

theorem stopsAt_eq (stop : TokenKind → Bool) [Decidable (AtStop stop tokens)] :
    stopsAt stop last tokens = ⟨[], tokens, .ok (decide (AtStop stop tokens))⟩ := by
  simp only [stopsAt, Reply.mk.injEq, Except.ok.injEq, true_and]
  cases tokens <;> simp [AtStop]

/-- One round of the loop: it is over, or an item is read and the loop goes on. -/
theorem statements_eq_ok_iff {stop : TokenKind → Bool} {bound : Nat} {list : List Stmt}
    {errors : List SyntaxError} :
    statements stop item (bound + 1) last tokens = ⟨errors, rest, .ok list⟩ ↔
      (AtStop stop tokens ∧ errors = [] ∧ rest = tokens ∧ list = []) ∨
      (¬ AtStop stop tokens ∧ ∃ before middle found after more,
        item last tokens = ⟨before, middle, .ok found⟩ ∧
        statements stop item bound last middle = ⟨after, rest, .ok more⟩ ∧
        errors = before ++ after ∧ list = found.toList ++ more) := by
  classical
  rw [statements, bind_eq_ok_iff]
  simp only [stopsAt_eq, Reply.mk.injEq, Except.ok.injEq]
  constructor
  · rintro ⟨_, _, _, after, ⟨rfl, rfl, rfl⟩, h, rfl⟩
    split at h
    · rename_i hstop
      cases h
      exact .inl ⟨of_decide_eq_true hstop, rfl, rfl, rfl⟩
    · rename_i hstop
      obtain ⟨before, middle, found, after, hfound, h₁, rfl⟩ := bind_eq_ok_iff.mp h
      obtain ⟨others, left, more, _, hmore, h₂, rfl⟩ := bind_eq_ok_iff.mp h₁
      cases h₂
      exact .inr ⟨by simpa using hstop, before, middle, found, others, more, hfound, hmore,
        by simp, rfl⟩
  · rintro (⟨hstop, rfl, rfl, rfl⟩ | ⟨hstop, before, middle, found, after, more, hf, hm, rfl, rfl⟩)
    · exact ⟨[], rest, true, [], ⟨rfl, rfl, by simpa using hstop⟩, rfl, rfl⟩
    · refine ⟨[], tokens, false, _, ⟨rfl, rfl, by simpa using hstop⟩, ?_, rfl⟩
      refine bind_eq_ok_iff.mpr ⟨before, middle, found, after, hf, ?_, rfl⟩
      exact bind_eq_ok_iff.mpr ⟨after, rest, more, [], hm, rfl, by simp⟩

end Loop

/-- An item that reports nothing has read a declaration. -/
def ItemSound (item : Parser (Option Stmt)) : Prop :=
  ∀ ⦃last : Token⦄ ⦃tokens rest : List Token⦄ ⦃found : Option Stmt⦄,
    item last tokens = ⟨[], rest, .ok found⟩ →
    ∃ s used, found = some s ∧ tokens = used ++ rest ∧ Declaration used s []

section Soundness
variable {item : Parser (Option Stmt)} {last : Token} {tokens rest : List Token}

/-- The loop reads declarations, and with a bound for every token all up to a stop. -/
private theorem statements_sound (hi : ItemSound item) {stop : TokenKind → Bool} {bound : Nat}
    {list : List Stmt} (h : statements stop item bound last tokens = ⟨[], rest, .ok list⟩) :
    ∃ used, tokens = used ++ rest ∧ Declarations used list [] ∧
      (tokens.length ≤ bound → AtStop stop rest) := by
  induction bound generalizing tokens list with
  | zero =>
    cases h
    refine ⟨[], rfl, .nil, fun hbound => ?_⟩
    simp [List.length_eq_zero_iff.mp (Nat.le_zero.mp hbound), AtStop]
  | succ bound ih =>
    rcases statements_eq_ok_iff.mp h with ⟨hstop, -, rfl, rfl⟩ |
      ⟨-, before, middle, found, after, list, hfound, hlist, hnil, rfl⟩
    · exact ⟨[], rfl, .nil, fun _ => hstop⟩
    · obtain ⟨rfl, rfl⟩ := List.append_eq_nil_iff.mp hnil.symm
      obtain ⟨s, used, rfl, rfl, hd⟩ := hi hfound
      obtain ⟨more, rfl, hds, hend⟩ := ih hlist
      obtain ⟨t, others, rfl, -⟩ := hd.head
      refine ⟨t :: others ++ more, by simp, by simpa using Declarations.cons hd hds,
        fun hbound => ?_⟩
      exact hend (by simp at hbound ⊢; omega)

private theorem statement_sound (hi : ItemSound item) {bound : Nat} {s : Stmt}
    (h : statement bound item last tokens = ⟨[], rest, .ok s⟩) :
    ∃ used, tokens = used ++ rest ∧ Declaration used s [] := by
  unfold statement at h
  rcases branch_eq_ok_iff.mp h with ⟨word, more, rfl, hw, h₁⟩ | ⟨-, h₁⟩
  · obtain ⟨used, rfl, hd⟩ := (declaration_reads hw).sound h₁
    exact ⟨word :: used, rfl, hd⟩
  rcases branch_eq_ok_iff.mp h₁ with ⟨word, more, rfl, hw, h₂⟩ | ⟨-, h₂⟩
  · obtain ⟨used, rfl, hd⟩ := (print_reads hw).sound h₂
    exact ⟨word :: used, rfl, hd⟩
  rcases branch_eq_ok_iff.mp h₂ with ⟨opening, more, rfl, ho, h₃⟩ | ⟨-, h₃⟩
  · obtain ⟨list, closing, hlist, hc, rfl⟩ := closed_eq_ok_iff.mp h₃
    obtain ⟨used, rfl, hd, -⟩ := statements_sound hi hlist
    exact ⟨opening :: used ++ [closing], by simp, .block ho hd hc⟩
  · exact evaluate_reads.sound h₃

/-- Recovery reports the error it recovers from, so without a report there was none. -/
private theorem recovering_eq_clean_iff {α : Type} {p : Parser α} {found : Option α} :
    recovering p last tokens = ⟨[], rest, .ok found⟩ ↔
      ∃ a, found = some a ∧ p last tokens = ⟨[], rest, .ok a⟩ := by
  unfold recovering
  rcases hp : p last tokens with ⟨reported, left, e | a⟩
  · simp
  · simp only [Reply.mk.injEq, Except.ok.injEq]
    constructor
    · rintro ⟨rfl, rfl, rfl⟩
      exact ⟨a, rfl, rfl, rfl, rfl⟩
    · rintro ⟨_, rfl, rfl, rfl, rfl⟩
      exact ⟨rfl, rfl, rfl⟩

theorem statementWithin_sound (bound : Nat) : ItemSound (statementWithin bound) := by
  induction bound with
  | zero =>
    intro last tokens rest found h
    obtain ⟨s, -, hs⟩ := recovering_eq_clean_iff.mp h
    cases hs
  | succ bound ih =>
    intro last tokens rest found h
    obtain ⟨s, rfl, hs⟩ := recovering_eq_clean_iff.mp h
    obtain ⟨used, rfl, hd⟩ := statement_sound ih hs
    exact ⟨s, used, rfl, rfl, hd⟩

end Soundness

/-- The item reads every declaration of at most `n` tokens, whatever follows it. -/
def ItemComplete (n : Nat) (item : Parser (Option Stmt)) : Prop :=
  ∀ ⦃tokens : List Token⦄ ⦃s : Stmt⦄ ⦃marks : List SyntaxError⦄, Declaration tokens s marks →
    tokens.length ≤ n → ∀ (last : Token) (rest : List Token),
    item last (tokens ++ rest) = ⟨marks, rest, .ok (some s)⟩

section Completeness
variable {item : Parser (Option Stmt)} {n : Nat}

/-- A closing token ends every expression before it. -/
private theorem expression_closed {tokens : List Token} {e : Expr} {marks : List SyntaxError}
    (h : Derives .assignment tokens e marks) {closing : Token}
    (hc : closing.kind = .symbol .semicolon) (last : Token) (rest : List Token) :
    expression last (tokens ++ closing :: rest) = ⟨marks, closing :: rest, .ok e⟩ :=
  expression_complete h last (.cons (by simp [hc, Level.continuation, Binding.operators]))

/-- No declaration starts where the loop stops. -/
private theorem Declaration.not_atStop {tokens : List Token} {s : Stmt} {marks : List SyntaxError}
    (h : Declaration tokens s marks) {stop : TokenKind → Bool}
    (hstop : ∀ kind, stop kind = true → kind = .symbol .rightBrace) (rest : List Token) :
    ¬ AtStop stop (tokens ++ rest) := by
  obtain ⟨t, more, rfl, ht⟩ := h.head
  intro hat
  rcases hat t rfl with hk | hk
  · simp [hk, startsExpression] at ht
  · simp [hstop _ hk, startsExpression] at ht

private theorem statements_complete (hi : ItemComplete n item) {stop : TokenKind → Bool}
    (hstop : ∀ kind, stop kind = true → kind = .symbol .rightBrace) {tokens : List Token}
    {list : List Stmt} {marks : List SyntaxError} (h : Declarations tokens list marks)
    (hlen : tokens.length ≤ n) {bound : Nat} (hbound : tokens.length ≤ bound) (last : Token)
    {rest : List Token} (hrest : AtStop stop rest) :
    statements stop item bound last (tokens ++ rest) = ⟨marks, rest, .ok list⟩ := by
  induction bound generalizing tokens list marks with
  | zero =>
    cases h with
    | nil => rfl
    | cons hd =>
      obtain ⟨t, more, rfl, -⟩ := hd.head
      simp at hbound
  | succ bound ih =>
    cases h with
    | nil => exact statements_eq_ok_iff.mpr (.inl ⟨hrest, rfl, rfl, rfl⟩)
    | @cons tokens more first list marks others hd hds =>
      obtain ⟨t, tail, rfl, -⟩ := hd.head
      simp only [List.length_append, List.length_cons] at hlen hbound
      have hfirst := hi hd (by simp; omega) last (more ++ rest)
      rw [List.append_assoc]
      exact statements_eq_ok_iff.mpr (.inr ⟨hd.not_atStop hstop _, marks, _, some first, others,
        list, hfirst, ih hds (by omega) (by omega), rfl, rfl⟩)

/-- The first token of a declaration decides which branch reads it. -/
private theorem statement_complete (hi : ItemComplete n item) {bound : Nat} (hbound : n ≤ bound)
    {tokens : List Token} {s : Stmt} {marks : List SyntaxError} (h : Declaration tokens s marks)
    (hlen : tokens.length ≤ n + 1) (last : Token) (rest : List Token) :
    statement bound item last (tokens ++ rest) = ⟨marks, rest, .ok s⟩ := by
  unfold statement
  cases h with
  | @«variable» word name closing hw hk hc =>
    refine branch_eq_ok_iff.mpr (.inl ⟨word, name :: closing :: rest, rfl, hw, ?_⟩)
    refine bind_eq_ok_iff.mpr ⟨[], _, name, [], expect_eq_ok_iff.mpr ⟨rfl, rfl, hk⟩, ?_, rfl⟩
    refine branch_eq_ok_iff.mpr (.inr ⟨by simp [hc], ?_⟩)
    exact closed_eq_ok_iff.mpr ⟨none, closing, rfl, hc, rfl⟩
  | @initialized word name mark closing tokens e marks hw hk hm hd hc =>
    have he := expression_closed hd hc last rest
    refine branch_eq_ok_iff.mpr
      (.inl ⟨word, name :: mark :: (tokens ++ closing :: rest), by simp, hw, ?_⟩)
    refine bind_eq_ok_iff.mpr ⟨[], _, name, marks, expect_eq_ok_iff.mpr ⟨rfl, rfl, hk⟩, ?_, rfl⟩
    refine branch_eq_ok_iff.mpr (.inl ⟨mark, _, rfl, hm, ?_⟩)
    exact closed_eq_ok_iff.mpr ⟨some e, closing, map_eq_ok_iff.mpr ⟨e, he, rfl⟩, hc, rfl⟩
  | @print word closing tokens e marks hw hd hc =>
    have he := expression_closed hd hc last rest
    refine branch_eq_ok_iff.mpr (.inr ⟨by simp [hw], ?_⟩)
    refine branch_eq_ok_iff.mpr (.inl ⟨word, tokens ++ closing :: rest, by simp, hw, ?_⟩)
    exact closed_eq_ok_iff.mpr ⟨e, closing, he, hc, rfl⟩
  | @block opening closing tokens list marks ho hds hc =>
    simp only [List.length_append, List.length_cons] at hlen
    have hstop : AtStop (· = .symbol .rightBrace) (closing :: rest) := by simp [AtStop, hc]
    have hlist : statements (· = .symbol .rightBrace) item bound last (tokens ++ closing :: rest) =
        ⟨marks, closing :: rest, .ok list⟩ :=
      statements_complete hi (by simp) hds (by omega) (by omega) last hstop
    refine branch_eq_ok_iff.mpr (.inr ⟨by simp [ho], ?_⟩)
    refine branch_eq_ok_iff.mpr (.inr ⟨by simp [ho], ?_⟩)
    refine branch_eq_ok_iff.mpr (.inl ⟨opening, tokens ++ closing :: rest, by simp, ho, ?_⟩)
    exact closed_eq_ok_iff.mpr ⟨list, closing, hlist, hc, rfl⟩
  | @expression closing tokens e marks hd hc =>
    have he := expression_closed hd hc last rest
    obtain ⟨t, more, rfl, ht⟩ := hd.head
    have hother : ∀ kind, ¬ startsExpression kind →
        ∀ u ∈ (t :: more ++ [closing] ++ rest).head?, u.kind ≠ kind := by
      rintro kind hkind u hu rfl
      cases hu
      exact hkind ht
    refine branch_eq_ok_iff.mpr (.inr ⟨hother _ (by simp [startsExpression]), ?_⟩)
    refine branch_eq_ok_iff.mpr (.inr ⟨hother _ (by simp [startsExpression]), ?_⟩)
    refine branch_eq_ok_iff.mpr (.inr ⟨hother _ (by simp [startsExpression]), ?_⟩)
    rw [List.append_assoc]
    exact closed_eq_ok_iff.mpr ⟨e, closing, he, hc, rfl⟩

theorem recovering_of_ok {α : Type} {p : Parser α} {last : Token} {tokens rest : List Token}
    {errors : List SyntaxError} {a : α} (h : p last tokens = ⟨errors, rest, .ok a⟩) :
    recovering p last tokens = ⟨errors, rest, .ok (some a)⟩ := by
  simp [recovering, h]

theorem recovering_of_error {α : Type} {p : Parser α} {last : Token} {tokens rest : List Token}
    {errors : List SyntaxError} {e : SyntaxError} (h : p last tokens = ⟨errors, rest, .error e⟩) :
    recovering p last tokens = ⟨errors ++ [e], resume rest, .ok none⟩ := by
  simp [recovering, h]

theorem statementWithin_complete (bound : Nat) : ItemComplete bound (statementWithin bound) := by
  induction bound with
  | zero =>
    intro tokens s marks h hlen
    obtain ⟨t, more, rfl, -⟩ := h.head
    simp at hlen
  | succ bound ih =>
    intro tokens s marks h hlen last rest
    exact recovering_of_ok (statement_complete ih (by omega) h hlen last rest)

/-- A program that ends is read whole, with its marks reported. -/
theorem statementsOf_complete {tokens rest : List Token} {program : List Stmt}
    {marks : List SyntaxError} (h : Declarations tokens program marks) (last : Token)
    (hrest : AtStop (fun _ => false) rest) :
    statementsOf last (tokens ++ rest) = ⟨marks, rest, .ok program⟩ :=
  bind_eq_ok_iff.mpr ⟨[], _, (tokens ++ rest).length, marks, rfl,
    statements_complete (statementWithin_complete _) (by simp) h (by simp) (by simp) last hrest,
    rfl⟩

end Completeness

theorem statementsOf_sound {last : Token} {tokens rest : List Token} {program : List Stmt}
    (h : statementsOf last tokens = ⟨[], rest, .ok program⟩) :
    ∃ used, tokens = used ++ rest ∧ Declarations used program [] ∧
      AtStop (fun _ => false) rest := by
  obtain ⟨before, middle, count, after, hcount, hread, hnil⟩ := bind_eq_ok_iff.mp h
  obtain ⟨rfl, rfl⟩ := List.append_eq_nil_iff.mp hnil.symm
  cases hcount
  obtain ⟨used, rfl, hd, hend⟩ := statements_sound (statementWithin_sound _) hread
  exact ⟨used, rfl, hd, hend (Nat.le_refl _)⟩

/-- Neither the end of input nor what starts or ends a statement belongs to an expression. -/
def Inner (kind : TokenKind) : Prop := ¬ Boundary kind ∧ kind ≠ .symbol .semicolon

theorem Inner.symbol {s : Symbol} (h : s ≠ .semicolon) : Inner (.symbol s) :=
  ⟨not_boundary_symbol s, by simpa using h⟩

theorem Inner.identifier : Inner .identifier := ⟨fun h => h.ne_identifier rfl, by simp⟩

theorem startsExpression.inner {kind : TokenKind} (h : startsExpression kind) : Inner kind := by
  rcases h with rfl | rfl | rfl | rfl | rfl | rfl | rfl | rfl | rfl <;>
    simp [Inner, Boundary, startsStatement]

private theorem Binding.ne_semicolon {b : Binding} {s : Symbol} (h : s ∈ b.operators) :
    s ≠ .semicolon := by
  rintro rfl
  cases b <;> simp [operators] at h

theorem Derives.inner {l : Level} {tokens : List Token} {e : Expr} {marks : List SyntaxError}
    (h : Derives l tokens e marks) : ∀ t ∈ tokens, Inner t.kind := by
  have hsymbol {t : Token} {s : Symbol} (ht : t.kind = .symbol s) (hs : s ≠ .semicolon) :
      Inner t.kind := ht ▸ .symbol hs
  induction h with
  | assign hk hm _ ih =>
    exact List.forall_mem_cons.mpr
      ⟨hk ▸ .identifier, List.forall_mem_cons.mpr ⟨hsymbol hm (by simp), ih⟩⟩
  | badTarget _ _ hm _ ih ih' =>
    exact List.forall_mem_append.mpr ⟨ih, List.forall_mem_cons.mpr ⟨hsymbol hm (by simp), ih'⟩⟩
  | binary _ hk hs _ ih ih' =>
    exact List.forall_mem_append.mpr
      ⟨ih, List.forall_mem_cons.mpr ⟨hsymbol hk (Binding.ne_semicolon hs), ih'⟩⟩
  | equality _ ih | operand _ ih | primary _ ih => exact ih
  | unary ho _ ih =>
    refine List.forall_mem_cons.mpr ⟨?_, ih⟩
    rcases ho with ho | ho <;> exact hsymbol ho (by simp)
  | literal hv => exact List.forall_mem_singleton.mpr hv.startsExpression.inner
  | name hk => exact List.forall_mem_singleton.mpr (hk ▸ .identifier)
  | group ho hc _ ih =>
    rw [List.cons_append]
    refine List.forall_mem_cons.mpr ⟨hsymbol ho (by simp), List.forall_mem_append.mpr ⟨ih, ?_⟩⟩
    exact List.forall_mem_singleton.mpr (hsymbol hc (by simp))

/-- The end of input belongs to no expression. -/
theorem Derives.kind_ne_end {l : Level} {tokens : List Token} {e : Expr} {marks : List SyntaxError}
    (h : Derives l tokens e marks) : ∀ t ∈ tokens, t.kind ≠ .endOfInput :=
  fun t ht hend => (h.inner t ht).1 (.inl hend)

mutual

theorem Declaration.kind_ne_end {tokens : List Token} {s : Stmt} {marks : List SyntaxError}
    (h : Declaration tokens s marks) : ∀ t ∈ tokens, t.kind ≠ .endOfInput := by
  cases h with
  | «variable» hw hk hc => simp [hw, hk, hc]
  | initialized hw hk hm hd hc => simpa [hw, hk, hm, hc, or_imp, forall_and] using hd.kind_ne_end
  | print hw hd hc => simpa [hw, hc, or_imp, forall_and] using hd.kind_ne_end
  | block ho hds hc => simpa [ho, hc, or_imp, forall_and] using hds.kind_ne_end
  | expression hd hc => simpa [hc, or_imp, forall_and] using hd.kind_ne_end

theorem Declarations.kind_ne_end {tokens : List Token} {list : List Stmt}
    {marks : List SyntaxError} (h : Declarations tokens list marks) :
    ∀ t ∈ tokens, t.kind ≠ .endOfInput := by
  cases h with
  | nil => simp
  | cons hd hds =>
    simpa [or_imp, forall_and] using And.intro hd.kind_ne_end hds.kind_ne_end

end

theorem body_append {tokens rest : List Token} (h : ∀ t ∈ tokens, t.kind ≠ .endOfInput)
    (hrest : AtStop (fun _ => false) rest) : body (tokens ++ rest) = tokens := by
  have hstop : body rest = [] := by
    cases rest with
    | nil => rfl
    | cons t more =>
      have ht : t.kind = .endOfInput := by simpa [AtStop] using hrest
      simp [body, ht]
  rw [body, List.takeWhile_append_of_pos (by simpa using h)]
  exact (congrArg (tokens ++ ·) hstop).trans (List.append_nil _)

private theorem exists_body_append (tokens : List Token) :
    ∃ rest, tokens = body tokens ++ rest ∧ AtStop (fun _ => false) rest := by
  refine ⟨_, (List.takeWhile_append_dropWhile).symm, fun t ht => ?_⟩
  have hnot := List.head?_dropWhile_not (fun t : Token => decide (t.kind ≠ .endOfInput)) tokens
  rw [Option.mem_def.mp ht] at hnot
  exact .inl (by simpa using hnot)

/-- Reading reports what any derivation of the tokens marks. -/
theorem ofTokens_of_declarations {tokens : List Token} {program : List Stmt}
    {marks : List SyntaxError} (h : Declarations (body tokens) program marks) :
    ofTokens tokens = if marks = [] then .ok program else .error marks := by
  obtain ⟨rest, htokens, hend⟩ := exists_body_append tokens
  have hread := statementsOf_complete h (lastToken tokens) hend
  rw [← htokens] at hread
  rw [ofTokens, hread]
  cases marks <;> rfl

theorem ofTokens_eq_ok_iff {tokens : List Token} {program : List Stmt} :
    ofTokens tokens = .ok program ↔ Declarations (body tokens) program [] := by
  constructor
  · intro h
    have hread : ∃ rest, statementsOf (lastToken tokens) tokens = ⟨[], rest, .ok program⟩ := by
      unfold ofTokens at h
      rcases hr : statementsOf (lastToken tokens) tokens with ⟨reported, rest, e | p⟩
      · simp [hr] at h
      · cases reported <;> simp_all
    obtain ⟨rest, hread⟩ := hread
    obtain ⟨used, rfl, hd, hend⟩ := statementsOf_sound hread
    rwa [body_append hd.kind_ne_end hend]
  · intro h
    rw [ofTokens_of_declarations h, if_pos rfl]

/-- Exactly the programs of the grammar are accepted, each as the tree of its derivation, and the
grammar is unambiguous. -/
theorem accepted_iff_derived :
    (∀ tokens program,
      ofTokens tokens = .ok program ↔ Declarations (body tokens) program []) ∧
    ∀ tokens program other,
      Declarations tokens program [] → Declarations tokens other [] → program = other := by
  refine ⟨fun _ _ => ofTokens_eq_ok_iff, fun tokens program other h h' => ?_⟩
  have hend : AtStop (fun _ => false) [] := by simp [AtStop]
  have hbody : body tokens = tokens := by simpa using body_append h.kind_ne_end hend
  have hp : ofTokens tokens = .ok program := ofTokens_eq_ok_iff.mpr (hbody.symm ▸ h)
  have ho : ofTokens tokens = .ok other := ofTokens_eq_ok_iff.mpr (hbody.symm ▸ h')
  exact Except.ok.inj (hp.symm.trans ho)

/-- An assignment before the end of input, with a name behind it that does not count. -/
theorem accepted_iff_derived_assignment :
    let name : Token := ⟨.identifier, "a", .nil, 1⟩
    let number : Token := ⟨.number, "1", .string "one", 1⟩
    let tokens := [name, ⟨.symbol .equal, "=", .nil, 1⟩, number,
      ⟨.symbol .semicolon, ";", .nil, 1⟩, .endOfInput 1, name]
    ofTokens tokens = .ok [.evaluate (.assign name (.literal (.string "one")))] := by
  intro name number tokens
  have hnumber : Derives .assignment [number] (.literal number.literal) [] :=
    .equality (.equality_of_primary (.literal (.number rfl)))
  refine (accepted_iff_derived.1 tokens _).mpr ?_
  exact .cons (.expression (.assign rfl rfl hnumber) rfl) .nil

end BlockScript.Grammar
