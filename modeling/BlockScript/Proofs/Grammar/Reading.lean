import BlockScript.Program.Statement
import BlockScript.Proofs.Grammar.Moving

/-!
A logic of parsers. A parser of the logic reads a language of token lists, with a result and marks
for each. It is put together from parts that take tokens of a class, give up, or blame an equals
sign, and all parsers of expressions are. So a property of parsers that these parts have, and that
they keep when they are put together, is one of every expression parser.
-/
namespace BlockScript.Grammar
open Program Program.Parser

namespace Binding

/-- The operators of a level, as the parser knows them. -/
def accepts : Binding → TokenKind → Bool
  | equality => isEqualityOperator
  | comparison => isComparisonOperator
  | term => isTermOperator
  | factor => isFactorOperator

theorem accepts_iff {b : Binding} {kind : TokenKind} :
    b.accepts kind = true ↔ ∃ s ∈ b.operators, kind = .symbol s := by
  cases b <;> simp [accepts, operators, isEqualityOperator, isComparisonOperator, isTermOperator,
    isFactorOperator, or_assoc]

end Binding

theorem isUnaryOperator_iff {kind : TokenKind} :
    isUnaryOperator kind = true ↔ kind = .symbol .bang ∨ kind = .symbol .minus := by
  simp [isUnaryOperator]

/-- An atom is a literal or a name. -/
theorem atom?_eq_some_iff {t : Token} {e : Expr} :
    atom? t = some e ↔
      (∃ v, Denotes t v ∧ e = .literal v) ∨ (t.kind = .identifier ∧ e = .name t) := by
  constructor
  · intro h
    unfold atom? at h
    split at h <;> cases h
    · exact .inl ⟨_, .false ‹_›, rfl⟩
    · exact .inl ⟨_, .true ‹_›, rfl⟩
    · exact .inl ⟨_, .nil ‹_›, rfl⟩
    · exact .inl ⟨_, .number ‹_›, rfl⟩
    · exact .inl ⟨_, .string ‹_›, rfl⟩
    · exact .inr ⟨‹_›, rfl⟩
  · rintro (⟨v, h, rfl⟩ | ⟨h, rfl⟩)
    · cases h <;> simp [atom?, *]
    · simp [atom?, h]

end BlockScript.Grammar

namespace BlockScript.Program
open BlockScript.Program.Parser Grammar

/-- The end of input and the words that start a statement. No expression goes on behind them. -/
def Boundary (kind : TokenKind) : Prop := kind = .endOfInput ∨ startsStatement kind = true

private theorem Boundary.ne_symbol {kind : TokenKind} (h : Boundary kind) (s : Symbol) :
    kind ≠ .symbol s := by
  rintro rfl
  simp [Boundary, startsStatement] at h

theorem Boundary.ne_identifier {kind : TokenKind} (h : Boundary kind) : kind ≠ .identifier := by
  rintro rfl
  simp [Boundary, startsStatement] at h

/-- What an expression that has been read is as a whole: itself, or an assignment to it whose value
is in a language. -/
inductive Assigned (M : Expr → List Token → List SyntaxError → Prop) (target : Expr) :
    Expr → List Token → List SyntaxError → Prop where
  | target : Assigned M target target [] []
  | name {t mark : Token} {value : Expr} {used : List Token} {marks : List SyntaxError} :
      target = .name t → mark.kind = .symbol .equal → M value used marks →
      Assigned M target (.assign t value) (mark :: used) marks
  | badTarget {mark : Token} {value : Expr} {used : List Token} {marks : List SyntaxError} :
      (∀ t, target ≠ .name t) → mark.kind = .symbol .equal → M value used marks →
      Assigned M target target (mark :: used) (marks ++ [⟨.invalidTarget, mark⟩])

/-- What is taken of the next token: nothing or all. -/
def Accepts {α : Type} (classify : Token → Option α) (found : Option α)
    (used : List Token) : Prop :=
  found = none ∧ used = [] ∨ ∃ t a, found = some a ∧ used = [t] ∧ classify t = some a

/-- A parser of the logic and the language it reads. No parser gives up for a bad target or for the
end of a block, and none looks for a token of a boundary. -/
inductive Reads : {α : Type} → Parser α → (α → List Token → List SyntaxError → Prop) → Prop where
  | pure {α : Type} {L : α → List Token → List SyntaxError → Prop} {a : α} :
      L a [] [] → Reads (pure a) L
  | fail {α : Type} {L : α → List Token → List SyntaxError → Prop} {fault : SyntaxFault} :
      fault ≠ .invalidTarget → fault ≠ .unclosedBlock → (∃ a used marks, L a used marks) →
      Reads (fail fault) L
  | accept? {α : Type} {classify : Token → Option α} :
      (∀ t, Boundary t.kind → classify t = none) →
      Reads (accept? classify) fun found used marks => marks = [] ∧ Accepts classify found used
  | bind {α β : Type} {p : Parser α} {f : α → Parser β}
      {M : α → List Token → List SyntaxError → Prop}
      {N : β → List Token → List SyntaxError → Prop} :
      Reads p M →
      (∀ a used marks, M a used marks →
        Reads (f a) fun b more others => N b (used ++ more) (marks ++ others)) →
      Reads (p >>= f) N
  | mono {α : Type} {p : Parser α} {L M : α → List Token → List SyntaxError → Prop} :
      Reads p M → (∀ a used marks, M a used marks → L a used marks) → Reads p L
  | assigned {inner : Parser Expr} {M : Expr → List Token → List SyntaxError → Prop}
      {target : Expr} : Reads inner M → Reads (assigned inner target) (Assigned M target)
  | bounded {α : Type} {p : Nat → Parser α} {L : α → List Token → List SyntaxError → Prop} :
      (∀ bound, Reads (p bound) L) →
      (∀ bound last tokens, tokens.length ≤ bound →
        p bound last tokens = p tokens.length last tokens) →
      Reads (do p (← remaining)) L

/-- What follows the target of an assignment. -/
private theorem assigned_sound {inner : Parser Expr}
    {M : Expr → List Token → List SyntaxError → Prop}
    (hi : ∀ {last tokens rest e marks}, inner last tokens = ⟨marks, rest, .ok e⟩ →
      ∃ used, tokens = used ++ rest ∧ M e used marks)
    {last : Token} {tokens rest : List Token} {target e : Expr} {marks : List SyntaxError}
    (h : assigned inner target last tokens = ⟨marks, rest, .ok e⟩) :
    ∃ used, tokens = used ++ rest ∧ Assigned M target e used marks := by
  obtain ⟨_, middle, found, after, hfound, h₁, rfl⟩ := bind_eq_ok_iff.mp h
  cases found with
  | none =>
    obtain ⟨rfl, rfl, -⟩ := take?_eq_none_iff.mp hfound
    cases h₁
    exact ⟨[], rfl, .target⟩
  | some mark =>
    obtain ⟨rfl, rfl, hm⟩ := take?_eq_some_iff.mp hfound
    have hm : mark.kind = .symbol .equal := by simpa using hm
    obtain ⟨others, middle, value, after, hv, h₂, rfl⟩ := bind_eq_ok_iff.mp h₁
    obtain ⟨used, rfl, hvalue⟩ := hi hv
    cases target with
    | name t =>
      cases h₂
      exact ⟨mark :: used, rfl, by simpa using Assigned.name rfl hm hvalue⟩
    | literal | group | unary | binary | assign =>
      obtain ⟨_, _, _, _, hreport, hreturn, rfl⟩ := bind_eq_ok_iff.mp h₂
      cases hreport
      cases hreturn
      exact ⟨mark :: used, rfl, .badTarget (by simp) hm hvalue⟩

namespace Reads
variable {α β : Type} {p q : Parser α} {L M : α → List Token → List SyntaxError → Prop}
  {N : β → List Token → List SyntaxError → Prop} {kind : TokenKind} {fault : SyntaxFault}

theorem take? {wanted : TokenKind → Bool} (h : ∀ kind, Boundary kind → wanted kind = false) :
    Reads (take? wanted) fun found used marks => marks = [] ∧
      (found = none ∧ used = [] ∨ ∃ t, found = some t ∧ used = [t] ∧ wanted t.kind = true) := by
  refine .mono (.accept? fun t ht => by rw [h t.kind ht]; rfl) fun found used marks => ?_
  refine And.imp_right (Or.imp_right ?_)
  rintro ⟨t, a, rfl, rfl, ht⟩
  obtain ⟨hwanted, ⟨⟩⟩ := Option.ite_none_right_eq_some.mp ht
  exact ⟨t, rfl, rfl, hwanted⟩

/-- A choice by the next token, which is taken if it is wanted. -/
theorem next {wanted : TokenKind → Bool} {f : Option Token → Parser β}
    (h : ∀ kind, Boundary kind → wanted kind = false)
    (hsome : ∀ t : Token, wanted t.kind = true →
      Reads (f (some t)) fun b used marks => N b (t :: used) marks)
    (hnone : Reads (f none) N) : Reads (Parser.take? wanted >>= f) N := by
  refine .bind (take? h) ?_
  rintro found used marks ⟨rfl, ⟨rfl, rfl⟩ | ⟨t, rfl, rfl, ht⟩⟩
  · exact hnone
  · exact hsome t ht

theorem map {g : α → β} (hp : Reads p M)
    (hg : ∀ a used marks, M a used marks → N (g a) used marks) :
    Reads (do let a ← p; return g a) N :=
  .bind hp fun a used marks ha => .pure (by simpa using hg a used marks ha)

theorem expect (hkind : ¬ Boundary kind) (hfault : fault ≠ .invalidTarget)
    (hblock : fault ≠ .unclosedBlock) :
    Reads (expect kind fault) fun t used marks => marks = [] ∧ used = [t] ∧ t.kind = kind := by
  refine next (fun other hother => decide_eq_false ?_) (fun t ht => .pure ?_) (.fail hfault hblock ?_)
  · rintro rfl
    exact hkind hother
  · exact ⟨rfl, rfl, by simpa using ht⟩
  · exact ⟨⟨kind, "", .nil, 1⟩, _, _, rfl, rfl, rfl⟩

/-- A part that a token has to close. -/
theorem closed {g : α → β} (hkind : ¬ Boundary kind) (hfault : fault ≠ .invalidTarget)
    (hblock : fault ≠ .unclosedBlock) (hp : Reads p M)
    (hg : ∀ a used marks t, M a used marks → t.kind = kind → N (g a) (used ++ [t]) marks) :
    Reads (do let a ← p; let _ ← Parser.expect kind fault; return g a) N := by
  refine .bind hp fun a used marks ha => map (expect hkind hfault hblock) ?_
  rintro t _ _ ⟨rfl, rfl, ht⟩
  rw [List.append_nil]
  exact hg a used marks t ha ht

theorem skip (hkind : ¬ Boundary kind) : Reads (skip kind) fun taken used marks => marks = [] ∧
    (taken = false ∧ used = [] ∨ ∃ t : Token, taken = true ∧ used = [t] ∧ t.kind = kind) := by
  refine map (take? fun other hother => decide_eq_false ?_) fun found used marks => ?_
  · rintro rfl
    exact hkind hother
  · rintro ⟨rfl, ⟨rfl, rfl⟩ | ⟨t, rfl, rfl, ht⟩⟩
    · exact ⟨rfl, .inl ⟨rfl, rfl⟩⟩
    · exact ⟨rfl, .inr ⟨t, rfl, rfl, by simpa using ht⟩⟩

/-- A branch on the next token, which only the first branch takes. -/
theorem branch (hkind : ¬ Boundary kind)
    (hp : ∀ t : Token, t.kind = kind → Reads p fun a used marks => L a (t :: used) marks)
    (hq : Reads q L) : Reads (do if ← Parser.skip kind then p else q) L := by
  refine .bind (skip hkind) ?_
  rintro taken used marks ⟨rfl, ⟨rfl, rfl⟩ | ⟨t, rfl, rfl, ht⟩⟩
  · exact hq
  · exact hp t ht

/-- Whatever is read is in the language. -/
theorem sound {last : Token} {tokens rest : List Token} {a : α} {marks : List SyntaxError}
    (h : Reads p L) (hp : p last tokens = ⟨marks, rest, .ok a⟩) :
    ∃ used, tokens = used ++ rest ∧ L a used marks := by
  induction h generalizing last tokens rest marks with
  | pure ha =>
    cases hp
    exact ⟨[], rfl, ha⟩
  | fail => cases hp
  | @accept? _ classify =>
    cases a with
    | none =>
      obtain ⟨rfl, rfl, -⟩ := accept?_eq_none_iff.mp hp
      exact ⟨[], rfl, rfl, .inl ⟨rfl, rfl⟩⟩
    | some a =>
      obtain ⟨rfl, t, rfl, ht⟩ := accept?_eq_some_iff.mp hp
      exact ⟨[t], rfl, rfl, .inr ⟨t, a, rfl, rfl, ht⟩⟩
  | bind _ _ ih ih' =>
    obtain ⟨before, middle, a, after, hfirst, hsecond, rfl⟩ := bind_eq_ok_iff.mp hp
    obtain ⟨used, rfl, ha⟩ := ih hfirst
    obtain ⟨more, rfl, hb⟩ := ih' a used before ha hsecond
    exact ⟨used ++ more, (List.append_assoc ..).symm, hb⟩
  | mono _ hL ih =>
    obtain ⟨used, htokens, ha⟩ := ih hp
    exact ⟨used, htokens, hL _ used marks ha⟩
  | assigned _ ih => exact assigned_sound ih hp
  | bounded _ _ ih => exact ih tokens.length hp

theorem of_returns {a : α} (h : Reads p L) (ha : p.Returns a) : ∃ used marks, L a used marks := by
  obtain ⟨last, tokens, errors, rest, hp⟩ := ha
  obtain ⟨used, -, hL⟩ := h.sound hp
  exact ⟨used, errors, hL⟩

end Reads

/-- The parser reads the expressions of a level. -/
def ReadsLevel (p : Parser Expr) (l : Level) : Prop :=
  Reads p fun e used marks => Derives l used e marks

section Expressions
variable {inner next base : Parser Expr} {b : Binding}

theorem not_boundary_symbol (s : Symbol) : ¬ Boundary (.symbol s) := fun h => h.ne_symbol s rfl

private theorem atom?_of_boundary {t : Token} (h : Boundary t.kind) : atom? t = none := by
  rw [Option.eq_none_iff_forall_ne_some]
  intro e he
  rcases atom?_eq_some_iff.mp he with ⟨v, hv, -⟩ | ⟨hk, -⟩
  · cases hv <;> simp_all [Boundary, startsStatement]
  · exact h.ne_identifier hk

theorem operand_reads (hi : ReadsLevel inner .assignment) :
    ReadsLevel (operand inner) .primary := by
  refine .bind (.accept? fun t => atom?_of_boundary) ?_
  rintro found used marks ⟨rfl, ⟨rfl, rfl⟩ | ⟨t, e, rfl, rfl, ht⟩⟩
  · refine .branch (not_boundary_symbol _) (fun opening ho => ?_) (.fail (by simp) (by simp) ?_)
    · exact .closed (not_boundary_symbol _) (by simp) (by simp) hi
        fun e used marks closing hd hc => .group ho hc hd
    · exact ⟨_, _, _, .name (t := ⟨.identifier, "", .nil, 1⟩) rfl⟩
  · refine .pure ?_
    rcases atom?_eq_some_iff.mp ht with ⟨v, hv, rfl⟩ | ⟨hk, rfl⟩
    · exact .literal hv
    · exact .name hk

theorem unary_reads (hb : ReadsLevel base .primary) (bound : Nat) :
    ReadsLevel (unary base bound) .unary := by
  have hprimary : ReadsLevel base .unary := hb.mono fun _ _ _ hd => .primary hd
  induction bound with
  | zero => exact hprimary
  | succ bound ih =>
    refine .next (fun kind hkind => ?_) (fun operator ho => ?_) hprimary
    · simp [isUnaryOperator, hkind.ne_symbol]
    · exact .map ih fun e used marks hd => .unary (isUnaryOperator_iff.mp ho) hd

/-- The loop of a level goes on from any expression of the level. -/
private theorem extend_reads (hn : ReadsLevel next b.tighter) (bound : Nat) {left : Expr}
    {read : List Token} {known : List SyntaxError} (hl : Derives (.binary b) read left known) :
    Reads (extend b.accepts next bound left) fun e used marks =>
      Derives (.binary b) (read ++ used) e (known ++ marks) := by
  induction bound generalizing left read known with
  | zero => exact .pure (by simpa using hl)
  | succ bound ih =>
    refine .next (fun kind hkind => ?_) (fun operator ho => ?_) (.pure (by simpa using hl))
    · rw [Bool.eq_false_iff, ne_eq, Binding.accepts_iff]
      rintro ⟨s, -, hs⟩
      exact hkind.ne_symbol s hs
    · obtain ⟨s, hs, hk⟩ := Binding.accepts_iff.mp ho
      refine .bind hn fun right used marks hr => ?_
      refine (ih (.binary hl hk hs hr)).mono fun e more others hd => ?_
      simpa using hd

private theorem level_reads (hn : ReadsLevel next b.tighter) (bound : Nat) :
    ReadsLevel (level b.accepts bound next) (.binary b) :=
  .bind hn fun _ _ _ hd => extend_reads hn bound (.operand hd)

theorem factor_reads (hi : ReadsLevel inner .assignment) (bound : Nat) :
    ReadsLevel (factor bound inner) (.binary .factor) :=
  level_reads (b := .factor) (unary_reads (operand_reads hi) bound) bound

theorem term_reads (hi : ReadsLevel inner .assignment) (bound : Nat) :
    ReadsLevel (term bound inner) (.binary .term) :=
  level_reads (b := .term) (factor_reads hi bound) bound

theorem comparison_reads (hi : ReadsLevel inner .assignment) (bound : Nat) :
    ReadsLevel (comparison bound inner) (.binary .comparison) :=
  level_reads (b := .comparison) (term_reads hi bound) bound

theorem equality_reads (hi : ReadsLevel inner .assignment) (bound : Nat) :
    ReadsLevel (equality bound inner) (.binary .equality) :=
  level_reads (b := .equality) (comparison_reads hi bound) bound

theorem assignment_reads (hi : ReadsLevel inner .assignment) (bound : Nat) :
    ReadsLevel (assignment bound inner) .assignment := by
  refine .bind (equality_reads hi bound) fun target used marks hd => ?_
  refine (Reads.assigned hi).mono fun e more others h => ?_
  cases h with
  | target => simpa using hd.equality
  | name htarget hm hv =>
    subst htarget
    obtain ⟨rfl, hk, rfl⟩ := hd.tokens_of_name
    exact .assign hk hm hv
  | badTarget hne hm hv => simpa using hd.badTarget hne hm hv

theorem expressionWithin_reads (bound : Nat) : ReadsLevel (expressionWithin bound) .assignment := by
  induction bound with
  | zero =>
    refine .fail (by simp) (by simp) ?_
    exact ⟨_, _, _, .equality (.equality_of_primary
      (.name (t := ⟨.identifier, "", .nil, 1⟩) rfl))⟩
  | succ bound ih => exact assignment_reads ih (bound + 1)

theorem expression_reads : ReadsLevel expression .assignment :=
  .bounded expressionWithin_reads fun _ _ _ hbound =>
    (expressionWithin_moves Token.keepsText_id (Nat.le_refl _) hbound (Nat.le_refl _)).eq
      Expr.mapTokens_id

end Expressions

section Statements
variable {word : Token}

theorem declaration_reads (hw : word.kind = .keyword .varWord) :
    Reads declaration fun s used marks => Declaration (word :: used) s marks := by
  have hidentifier : ¬ Boundary .identifier := fun h => h.ne_identifier rfl
  refine .bind (.expect hidentifier (by simp) (by simp)) ?_
  rintro name used marks ⟨rfl, rfl, hk⟩
  refine .branch (not_boundary_symbol _) (fun mark hm => ?_) ?_
  · have hinitial : Reads (some <$> expression) fun initial used marks =>
        ∃ e, initial = some e ∧ Derives .assignment used e marks :=
      .map expression_reads fun e used marks hd => ⟨e, rfl, hd⟩
    refine .closed (not_boundary_symbol _) (by simp) (by simp) hinitial ?_
    rintro initial used marks closing ⟨e, rfl, hd⟩ hc
    exact .initialized hw hk hm hd hc
  · have hnone : Reads (return none : Parser (Option Expr)) fun initial used marks =>
        initial = none ∧ used = [] ∧ marks = [] := .pure ⟨rfl, rfl, rfl⟩
    refine .closed (not_boundary_symbol _) (by simp) (by simp) hnone ?_
    rintro initial used marks closing ⟨rfl, rfl, rfl⟩ hc
    exact .variable hw hk hc

/-- What follows the word of a print statement. -/
theorem print_reads (hw : word.kind = .keyword .printWord) :
    Reads (do
      let value ← expression
      let _ ← expect (.symbol .semicolon) .unfinishedPrint
      return Stmt.print value) fun s used marks => Declaration (word :: used) s marks :=
  .closed (not_boundary_symbol _) (by simp) (by simp) expression_reads
    fun _ _ _ _ hd hc => .print hw hd hc

theorem evaluate_reads :
    Reads (do
      let value ← expression
      let _ ← expect (.symbol .semicolon) .unfinishedExpression
      return Stmt.evaluate value) fun s used marks => Declaration used s marks :=
  .closed (not_boundary_symbol _) (by simp) (by simp) expression_reads
    fun _ _ _ _ hd hc => .expression hd hc

end Statements

end BlockScript.Program
