import BlockScript.Diagnostic
import BlockScript.Program.PrefixForm

/-!
The grammar as relations between token lists and trees. A derivation also lists the marks that a
reader leaves on assignments to what is no name; without marks it uses the rules of the grammar
and nothing else.
-/
namespace BlockScript.Grammar

/-- The levels of binary operators, from the loosest to the tightest. -/
inductive Binding where
  | equality | comparison | term | factor

/-- The levels of expressions. -/
inductive Level where
  | assignment
  | binary (b : Binding)
  | unary
  | primary

namespace Binding

def operators : Binding → List Symbol
  | equality => [.bangEqual, .equalEqual]
  | comparison => [.greater, .greaterEqual, .less, .lessEqual]
  | term => [.minus, .plus]
  | factor => [.slash, .star]

/-- The level of the operands. -/
def tighter : Binding → Level
  | equality => .binary .comparison
  | comparison => .binary .term
  | term => .binary .factor
  | factor => .unary

end Binding

/-- Tokens that stand for a value by themselves. Words have theirs whatever the token carries. -/
inductive Denotes : Token → Value → Prop where
  | number {t : Token} : t.kind = .number → Denotes t t.literal
  | string {t : Token} : t.kind = .string → Denotes t t.literal
  | true {t : Token} : t.kind = .keyword .trueWord → Denotes t (.bool true)
  | false {t : Token} : t.kind = .keyword .falseWord → Denotes t (.bool false)
  | nil {t : Token} : t.kind = .keyword .nilWord → Denotes t .nil

/-- The expressions of a level with their tokens. All rules but `badTarget` are the grammar's, and
`badTarget` is the only one that adds a mark. -/
inductive Derives : Level → List Token → Expr → List SyntaxError → Prop where
  | assign {name mark : Token} {tokens : List Token} {value : Expr} {marks : List SyntaxError} :
      name.kind = .identifier → mark.kind = .symbol .equal →
      Derives .assignment tokens value marks →
      Derives .assignment (name :: mark :: tokens) (.assign name value) marks
  | badTarget {tokens more : List Token} {mark : Token} {target value : Expr}
      {marks others : List SyntaxError} :
      Derives (.binary .equality) tokens target marks → (∀ t, target ≠ .name t) →
      mark.kind = .symbol .equal → Derives .assignment more value others →
      Derives .assignment (tokens ++ mark :: more) target
        (marks ++ others ++ [⟨.invalidTarget, mark⟩])
  | equality {tokens : List Token} {e : Expr} {marks : List SyntaxError} :
      Derives (.binary .equality) tokens e marks → Derives .assignment tokens e marks
  | binary {b : Binding} {operator : Token} {s : Symbol} {tokens more : List Token}
      {left right : Expr} {marks others : List SyntaxError} :
      Derives (.binary b) tokens left marks → operator.kind = .symbol s → s ∈ b.operators →
      Derives b.tighter more right others →
      Derives (.binary b) (tokens ++ operator :: more) (.binary left operator right)
        (marks ++ others)
  | operand {b : Binding} {tokens : List Token} {e : Expr} {marks : List SyntaxError} :
      Derives b.tighter tokens e marks → Derives (.binary b) tokens e marks
  | unary {operator : Token} {tokens : List Token} {e : Expr} {marks : List SyntaxError} :
      operator.kind = .symbol .bang ∨ operator.kind = .symbol .minus →
      Derives .unary tokens e marks → Derives .unary (operator :: tokens) (.unary operator e) marks
  | primary {tokens : List Token} {e : Expr} {marks : List SyntaxError} :
      Derives .primary tokens e marks → Derives .unary tokens e marks
  | literal {t : Token} {v : Value} : Denotes t v → Derives .primary [t] (.literal v) []
  | name {t : Token} : t.kind = .identifier → Derives .primary [t] (.name t) []
  | group {opening closing : Token} {tokens : List Token} {e : Expr} {marks : List SyntaxError} :
      opening.kind = .symbol .leftParen → closing.kind = .symbol .rightParen →
      Derives .assignment tokens e marks →
      Derives .primary (opening :: tokens ++ [closing]) (.group e) marks

mutual

/-- The rules for declarations and statements. -/
inductive Declaration : List Token → Stmt → List SyntaxError → Prop where
  | variable {word name closing : Token} :
      word.kind = .keyword .varWord → name.kind = .identifier →
      closing.kind = .symbol .semicolon → Declaration [word, name, closing] (.declare name none) []
  | initialized {word name mark closing : Token} {tokens : List Token} {e : Expr}
      {marks : List SyntaxError} :
      word.kind = .keyword .varWord → name.kind = .identifier → mark.kind = .symbol .equal →
      Derives .assignment tokens e marks → closing.kind = .symbol .semicolon →
      Declaration (word :: name :: mark :: tokens ++ [closing]) (.declare name (some e)) marks
  | print {word closing : Token} {tokens : List Token} {e : Expr} {marks : List SyntaxError} :
      word.kind = .keyword .printWord → Derives .assignment tokens e marks →
      closing.kind = .symbol .semicolon →
      Declaration (word :: tokens ++ [closing]) (.print e) marks
  | block {opening closing : Token} {tokens : List Token} {body : List Stmt}
      {marks : List SyntaxError} :
      opening.kind = .symbol .leftBrace → Declarations tokens body marks →
      closing.kind = .symbol .rightBrace →
      Declaration (opening :: tokens ++ [closing]) (.block body) marks
  | expression {closing : Token} {tokens : List Token} {e : Expr} {marks : List SyntaxError} :
      Derives .assignment tokens e marks → closing.kind = .symbol .semicolon →
      Declaration (tokens ++ [closing]) (.evaluate e) marks

/-- Programs, and what is between the braces of a block. -/
inductive Declarations : List Token → List Stmt → List SyntaxError → Prop where
  | nil : Declarations [] [] []
  | cons {tokens more : List Token} {first : Stmt} {rest : List Stmt}
      {marks others : List SyntaxError} :
      Declaration tokens first marks → Declarations more rest others →
      Declarations (tokens ++ more) (first :: rest) (marks ++ others)

end

/-- Tokens that an expression can start with. -/
def startsExpression (kind : TokenKind) : Prop :=
  kind = .number ∨ kind = .string ∨ kind = .identifier ∨ kind = .keyword .trueWord ∨
    kind = .keyword .falseWord ∨ kind = .keyword .nilWord ∨ kind = .symbol .leftParen ∨
    kind = .symbol .bang ∨ kind = .symbol .minus

theorem Denotes.startsExpression {t : Token} {v : Value} (h : Denotes t v) :
    startsExpression t.kind := by
  cases h <;> simp_all [Grammar.startsExpression]

/-- No level derives the empty list, and the first token tells that an expression begins. -/
theorem Derives.head {l : Level} {tokens : List Token} {e : Expr} {marks : List SyntaxError}
    (h : Derives l tokens e marks) : ∃ t rest, tokens = t :: rest ∧ startsExpression t.kind := by
  induction h with
  | assign hname => exact ⟨_, _, rfl, by simp [startsExpression, hname]⟩
  | badTarget _ _ _ _ ih | binary _ _ _ _ ih =>
    obtain ⟨t, rest, rfl, ht⟩ := ih
    exact ⟨t, _, rfl, ht⟩
  | equality _ ih | operand _ ih | primary _ ih => exact ih
  | unary hop => exact ⟨_, _, rfl, by rcases hop with h | h <;> simp [startsExpression, h]⟩
  | literal h => exact ⟨_, _, rfl, h.startsExpression⟩
  | name h => exact ⟨_, _, rfl, by simp [startsExpression, h]⟩
  | group h => exact ⟨_, _, rfl, by simp [startsExpression, h]⟩

/-- A tree that is a name comes from one token. -/
theorem Derives.tokens_of_name {l : Level} {tokens : List Token} {t : Token}
    {marks : List SyntaxError} (h : Derives l tokens (.name t) marks) :
    tokens = [t] ∧ t.kind = .identifier ∧ marks = [] := by
  generalize he : Expr.name t = e at h
  induction h with
  | assign | binary | unary | literal | group => exact absurd he (by simp)
  | badTarget _ hne => exact absurd he.symm (hne t)
  | equality _ ih | operand _ ih | primary _ ih => exact ih he
  | name hk =>
    cases he
    exact ⟨rfl, hk, rfl⟩

/-- The loosest operators reach down to the tightest level. -/
theorem Derives.equality_of_unary {tokens : List Token} {e : Expr} {marks : List SyntaxError}
    (h : Derives .unary tokens e marks) : Derives (.binary .equality) tokens e marks :=
  .operand (b := .equality) (.operand (b := .comparison) (.operand (b := .term)
    (.operand (b := .factor) h)))

theorem Derives.equality_of_primary {tokens : List Token} {e : Expr} {marks : List SyntaxError}
    (h : Derives .primary tokens e marks) : Derives (.binary .equality) tokens e marks :=
  (Derives.primary h).equality_of_unary

/-- Declarations start as an expression does, or with a token of their own. -/
theorem Declaration.head {tokens : List Token} {s : Stmt} {marks : List SyntaxError}
    (h : Declaration tokens s marks) :
    ∃ t rest, tokens = t :: rest ∧ (startsExpression t.kind ∨ t.kind = .keyword .varWord ∨
      t.kind = .keyword .printWord ∨ t.kind = .symbol .leftBrace) := by
  cases h with
  | «variable» hw | initialized hw | print hw | block hw => exact ⟨_, _, rfl, by simp [hw]⟩
  | expression he =>
    obtain ⟨t, rest, rfl, ht⟩ := he.head
    exact ⟨t, _, rfl, .inl ht⟩

theorem Declarations.append {tokens more : List Token} {first rest : List Stmt}
    {marks others : List SyntaxError} (h : Declarations tokens first marks)
    (h' : Declarations more rest others) :
    Declarations (tokens ++ more) (first ++ rest) (marks ++ others) := by
  induction first generalizing tokens marks with
  | nil =>
    cases h
    exact h'
  | cons s first ih =>
    cases h with
    | cons hs hrest =>
      rw [List.append_assoc, List.append_assoc]
      exact .cons hs (ih hrest)

end BlockScript.Grammar
