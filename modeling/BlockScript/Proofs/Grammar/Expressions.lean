import BlockScript.Proofs.Grammar.Reading

/-!
Every expression is read. A derivation is read with its marks as the reported errors, if what
follows it cannot belong to it.
-/
namespace BlockScript.Grammar
open Program Program.Parser

/-- The loop form of a level: operators with their right operands, gathered from the left. -/
inductive Chain (b : Binding) : Expr → List Token → Expr → List SyntaxError → Prop where
  | done {e : Expr} : Chain b e [] e []
  | step {left right e : Expr} {operator : Token} {s : Symbol} {tokens more : List Token}
      {marks others : List SyntaxError} :
      operator.kind = .symbol s → s ∈ b.operators → Derives b.tighter tokens right marks →
      Chain b (.binary left operator right) more e others →
      Chain b left (operator :: tokens ++ more) e (marks ++ others)

private theorem Chain.snoc {b : Binding} {left last right : Expr} {operator : Token} {s : Symbol}
    {tokens more : List Token} {marks others : List SyntaxError}
    (h : Chain b left tokens last marks) (hk : operator.kind = .symbol s) (hs : s ∈ b.operators)
    (hr : Derives b.tighter more right others) :
    Chain b left (tokens ++ operator :: more) (.binary last operator right) (marks ++ others) := by
  induction h with
  | done => simpa using Chain.step hk hs hr .done
  | step hk' hs' hd _ ih => simpa using Chain.step hk' hs' hd ih

/-- The left recursion of a level unrolls into a first operand and a chain. -/
private theorem Derives.chain {b : Binding} {tokens : List Token} {e : Expr}
    {marks : List SyntaxError} (h : Derives (.binary b) tokens e marks) :
    ∃ first head tail before after, Derives b.tighter head first before ∧
      Chain b first tail e after ∧ tokens = head ++ tail ∧ marks = before ++ after := by
  generalize hl : Level.binary b = l at h
  induction h with
  | assign | badTarget | equality | unary | primary | literal | name | group => cases hl
  | operand hd =>
    cases hl
    exact ⟨_, _, [], _, [], hd, .done, by simp, by simp⟩
  | binary _ hk hs hr ih =>
    cases hl
    obtain ⟨first, head, tail, before, after, hf, hc, rfl, rfl⟩ := ih rfl
    exact ⟨first, head, _, before, _, hf, hc.snoc hk hs hr, by simp, by simp⟩

/-- The symbols that would carry an expression of a level on. -/
def Level.continuation : Level → List Symbol
  | primary | unary => []
  | binary .factor => Binding.factor.operators
  | binary .term => Binding.term.operators ++ Binding.factor.operators
  | binary .comparison =>
    Binding.comparison.operators ++ Binding.term.operators ++ Binding.factor.operators
  | binary .equality =>
    Binding.equality.operators ++ Binding.comparison.operators ++ Binding.term.operators ++
      Binding.factor.operators
  | assignment =>
    .equal :: Binding.equality.operators ++ Binding.comparison.operators ++
      Binding.term.operators ++ Binding.factor.operators

/-- An expression of the level cannot go on into the tokens. -/
def Closes (l : Level) (rest : List Token) : Prop :=
  ∀ t ∈ rest.head?, ∀ s ∈ l.continuation, t.kind ≠ .symbol s

theorem Closes.cons {l : Level} {t : Token} {rest : List Token}
    (h : ∀ s ∈ l.continuation, t.kind ≠ .symbol s) : Closes l (t :: rest) := by
  simpa [Closes] using h

theorem Closes.mono {l l' : Level} {rest : List Token} (h : Closes l rest)
    (hsub : l'.continuation ⊆ l.continuation) : Closes l' rest :=
  fun t ht s hs => h t ht s (hsub hs)

private theorem Closes.tighter {b : Binding} {rest : List Token} (h : Closes (.binary b) rest) :
    Closes b.tighter rest :=
  h.mono (by cases b <;> simp [Binding.tighter, Level.continuation])

/-- The operators of a level end its operands. -/
private theorem Closes.operator {b : Binding} {t : Token} {s : Symbol} {rest : List Token}
    (hk : t.kind = .symbol s) (hs : s ∈ b.operators) : Closes b.tighter (t :: rest) := by
  apply Closes.cons
  intro s' hs' he
  cases hk.symm.trans he
  revert hs hs'
  cases b <;> cases s <;> decide

/-- The parser reads every derivation of at most `n` tokens, whatever follows it. -/
def Complete (n : Nat) (p : Parser Expr) (l : Level) : Prop :=
  ∀ ⦃tokens : List Token⦄ ⦃e : Expr⦄ ⦃marks : List SyntaxError⦄, Derives l tokens e marks →
    tokens.length ≤ n → ∀ (last : Token) (rest : List Token), Closes l rest →
    p last (tokens ++ rest) = ⟨marks, rest, .ok e⟩

section Completeness
variable {inner next base : Parser Expr} {n : Nat}

private theorem operand_complete (hi : Complete n inner .assignment) :
    Complete (n + 1) (operand inner) .primary := by
  intro tokens e marks h hlen last rest hrest
  unfold operand
  cases h with
  | @literal t v hv =>
    have ht : atom? t = some (.literal v) := atom?_eq_some_iff.mpr (.inl ⟨v, hv, rfl⟩)
    exact bind_eq_ok_iff.mpr
      ⟨[], rest, _, [], accept?_eq_some_iff.mpr ⟨rfl, t, rfl, ht⟩, rfl, rfl⟩
  | @name t hk =>
    have ht : atom? t = some (.name t) := atom?_eq_some_iff.mpr (.inr ⟨hk, rfl⟩)
    exact bind_eq_ok_iff.mpr
      ⟨[], rest, _, [], accept?_eq_some_iff.mpr ⟨rfl, t, rfl, ht⟩, rfl, rfl⟩
  | @group opening closing tokens e marks ho hc hd =>
    have hnone : ∀ t ∈ (opening :: (tokens ++ closing :: rest)).head?, atom? t = none := by
      simp [atom?, ho]
    have hlen' : tokens.length ≤ n := by simp at hlen; omega
    have hin : inner last (tokens ++ closing :: rest) = ⟨marks, closing :: rest, .ok e⟩ :=
      hi hd hlen' last _ (.cons (by simp [hc, Level.continuation, Binding.operators]))
    rw [List.append_assoc, List.singleton_append]
    refine bind_eq_ok_iff.mpr
      ⟨[], _, none, marks, accept?_eq_none_iff.mpr ⟨rfl, rfl, hnone⟩, ?_, rfl⟩
    refine branch_eq_ok_iff.mpr (.inl ⟨opening, _, rfl, ho, ?_⟩)
    exact closed_eq_ok_iff.mpr ⟨e, closing, hin, hc, rfl⟩

/-- A primary expression does not start with a prefix operator. -/
private theorem Derives.primary_head {tokens : List Token} {e : Expr} {marks : List SyntaxError}
    (h : Derives .primary tokens e marks) (rest : List Token) :
    ∀ t ∈ (tokens ++ rest).head?, isUnaryOperator t.kind = false := by
  cases h with
  | literal hv => cases hv <;> simp [isUnaryOperator, *]
  | name hk => simp [isUnaryOperator, hk]
  | group ho => simp [isUnaryOperator, ho]

private theorem unary_complete (hb : Complete n base .primary) {bound : Nat} (hbound : n ≤ bound) :
    Complete n (unary base bound) .unary := by
  intro tokens e marks h hlen last rest hrest
  induction bound generalizing n tokens e marks with
  | zero =>
    obtain ⟨t, more, rfl, -⟩ := h.head
    simp at hlen
    omega
  | succ bound ih =>
    unfold unary
    cases h with
    | primary hd =>
      exact bind_eq_ok_iff.mpr ⟨[], _, none, marks,
        take?_eq_none_iff.mpr ⟨rfl, rfl, hd.primary_head rest⟩, hb hd hlen last rest hrest, rfl⟩
    | @unary operator tokens e _ ho hd =>
      have hlen' : tokens.length ≤ n - 1 := by simp at hlen; omega
      have hb' : Complete (n - 1) base .primary :=
        fun _ _ _ hd hl last rest hrest => hb hd (by omega) last rest hrest
      have hin := ih hb' (by omega) hd hlen'
      refine bind_eq_ok_iff.mpr ⟨[], _, some operator, marks,
        take?_eq_some_iff.mpr ⟨rfl, rfl, isUnaryOperator_iff.mpr ho⟩, ?_, rfl⟩
      exact bind_eq_ok_iff.mpr ⟨marks, rest, e, [], hin, rfl, by simp⟩

private theorem extend_complete {b : Binding} (hn : Complete n next b.tighter) {left e : Expr}
    {tokens : List Token} {marks : List SyntaxError} (h : Chain b left tokens e marks)
    (hlen : tokens.length ≤ n) {bound : Nat} (hbound : tokens.length ≤ bound) (last : Token)
    (rest : List Token) (hrest : Closes (.binary b) rest) :
    extend b.accepts next bound left last (tokens ++ rest) = ⟨marks, rest, .ok e⟩ := by
  induction h generalizing bound with
  | done =>
    have hstop : ∀ t ∈ rest.head?, b.accepts t.kind = false := by
      intro t ht
      rw [Bool.eq_false_iff, ne_eq, Binding.accepts_iff]
      rintro ⟨s, hs, hk⟩
      exact hrest t ht s (by cases b <;> simp_all [Level.continuation]) hk
    cases bound with
    | zero => rfl
    | succ bound =>
      exact bind_eq_ok_iff.mpr
        ⟨[], rest, none, [], take?_eq_none_iff.mpr ⟨rfl, rfl, hstop⟩, rfl, rfl⟩
  | @step left right e operator s tokens more marks others hk hs hd hc ih =>
    simp only [List.cons_append, List.length_cons, List.length_append] at hlen hbound
    obtain ⟨bound, rfl⟩ : ∃ k, bound = k + 1 := ⟨bound - 1, by omega⟩
    have hmore : Closes b.tighter (more ++ rest) := by
      cases hc with
      | done => exact hrest.tighter
      | step hk' hs' => exact .operator hk' hs'
    have hright : next last (tokens ++ (more ++ rest)) = ⟨marks, more ++ rest, .ok right⟩ :=
      hn hd (by omega) last _ hmore
    rw [List.append_assoc, List.cons_append]
    refine bind_eq_ok_iff.mpr ⟨[], _, some operator, marks ++ others,
      take?_eq_some_iff.mpr ⟨rfl, rfl, Binding.accepts_iff.mpr ⟨s, hs, hk⟩⟩, ?_, rfl⟩
    exact bind_eq_ok_iff.mpr
      ⟨marks, _, right, others, hright, ih (by omega) (by omega), rfl⟩

private theorem level_complete {b : Binding} (hn : Complete n next b.tighter) {bound : Nat}
    (hbound : n ≤ bound) : Complete n (level b.accepts bound next) (.binary b) := by
  intro tokens e marks h hlen last rest hrest
  obtain ⟨first, head, tail, before, after, hf, hc, rfl, rfl⟩ := h.chain
  simp only [List.length_append] at hlen
  have htail : Closes b.tighter (tail ++ rest) := by
    cases hc with
    | done => exact hrest.tighter
    | step hk hs => exact .operator hk hs
  rw [List.append_assoc]
  exact bind_eq_ok_iff.mpr ⟨before, tail ++ rest, first, after, hn hf (by omega) last _ htail,
    extend_complete hn hc (by omega) (by omega) last rest hrest, rfl⟩

private theorem equality_complete (hi : Complete n inner .assignment) :
    Complete (n + 1) (equality (n + 1) inner) (.binary .equality) := by
  have hunary := unary_complete (operand_complete hi) (Nat.le_refl _)
  have hfactor := level_complete (b := .factor) hunary (Nat.le_refl _)
  have hterm := level_complete (b := .term) hfactor (Nat.le_refl _)
  have hcomparison := level_complete (b := .comparison) hterm (Nat.le_refl _)
  exact level_complete (b := .equality) hcomparison (Nat.le_refl _)

private theorem assignment_complete (hi : Complete n inner .assignment) :
    Complete (n + 1) (assignment (n + 1) inner) .assignment := by
  have heq := equality_complete hi
  intro tokens e marks h hlen last rest hrest
  unfold assignment
  cases h with
  | @equality tokens e marks hd =>
    have hstop : ∀ t ∈ rest.head?, decide (t.kind = .symbol .equal) = false := fun t ht =>
      decide_eq_false (hrest t ht .equal (by simp [Level.continuation]))
    have hclose : Closes (.binary .equality) rest := hrest.mono (by simp [Level.continuation])
    refine bind_eq_ok_iff.mpr ⟨marks, rest, e, [], heq hd hlen last rest hclose, ?_, by simp⟩
    exact bind_eq_ok_iff.mpr
      ⟨[], rest, none, [], take?_eq_none_iff.mpr ⟨rfl, rfl, hstop⟩, rfl, rfl⟩
  | @assign name mark tokens value marks hk hm hd =>
    have hname : Derives (.binary .equality) [name] (.name name) [] :=
      .equality_of_primary (.name hk)
    have hclose : Closes (.binary .equality) (mark :: (tokens ++ rest)) :=
      .cons (by simp [hm, Level.continuation, Binding.operators])
    have hvalue := hi hd (by simp at hlen; omega) last rest hrest
    refine bind_eq_ok_iff.mpr
      ⟨[], _, .name name, marks, heq hname (by simp) last _ hclose, ?_, rfl⟩
    refine bind_eq_ok_iff.mpr ⟨[], _, some mark, marks,
      take?_eq_some_iff.mpr ⟨rfl, rfl, by simpa using hm⟩, ?_, rfl⟩
    exact bind_eq_ok_iff.mpr ⟨marks, rest, value, [], hvalue, rfl, by simp⟩
  | @badTarget tokens more mark target value marks others hd hne hm hdv =>
    simp only [List.length_append, List.length_cons] at hlen
    have hclose : Closes (.binary .equality) (mark :: (more ++ rest)) :=
      .cons (by simp [hm, Level.continuation, Binding.operators])
    have hvalue := hi hdv (by omega) last rest hrest
    rw [List.append_assoc, List.cons_append]
    refine bind_eq_ok_iff.mpr ⟨marks, _, e, others ++ [⟨.invalidTarget, mark⟩],
      heq hd (by omega) last _ hclose, ?_, by simp⟩
    refine bind_eq_ok_iff.mpr ⟨[], _, some mark, _,
      take?_eq_some_iff.mpr ⟨rfl, rfl, by simpa using hm⟩, ?_, rfl⟩
    refine bind_eq_ok_iff.mpr ⟨others, rest, value, _, hvalue, ?_, rfl⟩
    cases e <;> first | rfl | exact absurd rfl (hne _)

private theorem expressionWithin_complete (bound : Nat) :
    Complete bound (expressionWithin bound) .assignment := by
  induction bound with
  | zero =>
    intro tokens e marks h hlen
    obtain ⟨t, more, rfl, -⟩ := h.head
    simp at hlen
  | succ bound ih => exact assignment_complete ih

/-- Every derived expression is read, with its marks reported, if what follows cannot belong to
it. -/
theorem expression_complete {tokens rest : List Token} {e : Expr} {marks : List SyntaxError}
    (h : Derives .assignment tokens e marks) (last : Token) (hrest : Closes .assignment rest) :
    expression last (tokens ++ rest) = ⟨marks, rest, .ok e⟩ :=
  bind_eq_ok_iff.mpr ⟨[], _, (tokens ++ rest).length, marks, rfl,
    expressionWithin_complete _ h (by simp) last rest hrest, rfl⟩

end Completeness

end BlockScript.Grammar
