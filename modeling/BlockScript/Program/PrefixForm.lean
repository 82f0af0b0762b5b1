import BlockScript.Token

/-!
Expressions and statements as trees. Names and operators keep their tokens, which errors point to.
The prefix form of an expression is a word, or a head and operands in parentheses, and the head with
the operands make up the expression again.
-/
namespace BlockScript

/-- An expression of the language. -/
inductive Expr where
  | literal (value : Value)
  | name (token : Token)
  | group (inner : Expr)
  | unary (operator : Token) (operand : Expr)
  | binary (left : Expr) (operator : Token) (right : Expr)
  | assign (target : Token) (value : Expr)
deriving DecidableEq

/-- A statement of the language. -/
inductive Stmt where
  | evaluate (expression : Expr)
  | print (expression : Expr)
  | declare (name : Token) (initial : Option Expr)
  | block (body : List Stmt)

namespace Expr

/-- Every operator in front of its operands, in parentheses. Operands are set off by one space each,
and a parenthesised expression is a `group`. -/
def prefixForm : Expr → String
  | literal value => value.display
  | name token => token.lexeme
  | group inner => "(group " ++ inner.prefixForm ++ ")"
  | unary operator operand => "(" ++ operator.lexeme ++ " " ++ operand.prefixForm ++ ")"
  | binary left operator right =>
    "(" ++ operator.lexeme ++ " " ++ left.prefixForm ++ " " ++ right.prefixForm ++ ")"
  | assign target value => "(= " ++ target.lexeme ++ " " ++ value.prefixForm ++ ")"

/-- The kind of the head, if the form has one. -/
def headKind : Expr → Option TokenKind
  | literal _ | name _ => none
  | group _ => some .identifier
  | unary operator _ | binary _ operator _ => some operator.kind
  | assign _ _ => some (.symbol .equal)

/-- The word that the form is, or the one that is its head. -/
def headText : Expr → List Char
  | literal value => value.display.toList
  | name token => token.lexeme.toList
  | group _ => "group".toList
  | unary operator _ | binary _ operator _ => operator.lexeme.toList
  | assign _ _ => ['=']

/-- What stands behind the head. The target of an assignment stands there as an expression. -/
def operands : Expr → List Expr
  | literal _ | name _ => []
  | group inner => [inner]
  | unary _ operand => [operand]
  | binary left _ right => [left, right]
  | assign target value => [name target, value]

def spaced (parts : List Expr) : List Char :=
  parts.flatMap fun part => ' ' :: part.prefixForm.toList

/-- The expression with a head and operands. -/
def ofParts (kind : TokenKind) (head : List Char) : List Expr → Option Expr
  | [first] =>
    if kind = .identifier then some (group first)
    else some (unary ⟨kind, String.ofList head, .nil, 0⟩ first)
  | [first, second] =>
    if kind = .symbol .equal then
      match first with
      | name token => some (assign token second)
      | _ => none
    else some (binary first ⟨kind, String.ofList head, .nil, 0⟩ second)
  | _ => none

theorem ofParts_binary {kind : TokenKind} (h : kind ≠ .symbol .equal) (head : List Char)
    (first second : Expr) : ofParts kind head [first, second] =
      some (binary first ⟨kind, String.ofList head, .nil, 0⟩ second) :=
  if_neg h

variable {e : Expr} {kind : TokenKind}

theorem prefixForm_word (h : e.headKind = none) : e.prefixForm.toList = e.headText := by
  cases e with
  | literal | name => rfl
  | group | unary | binary | assign => cases h

theorem prefixForm_node (h : e.headKind = some kind) : e.operands ≠ [] ∧
    e.prefixForm.toList = '(' :: (e.headText ++ (spaced e.operands ++ [')'])) := by
  cases e with
  | literal | name => cases h
  | group | unary | binary | assign =>
    constructor
    · simp [operands]
    · simp [prefixForm, headText, operands, spaced]

end Expr
end BlockScript
