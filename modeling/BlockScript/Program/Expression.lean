import BlockScript.Program.Parser

/-!
Reading expressions: assignments, then five levels of operators, then operands. Binary operators
group from the left, assignments and prefix operators from the right. Loops and nesting are
bounded by the number of tokens, of which each round takes at least one.
-/
namespace BlockScript.Program
open BlockScript.Program.Parser

def isEqualityOperator (kind : TokenKind) : Bool :=
  kind = .symbol .bangEqual || kind = .symbol .equalEqual

def isComparisonOperator (kind : TokenKind) : Bool :=
  kind = .symbol .greater || kind = .symbol .greaterEqual ||
    kind = .symbol .less || kind = .symbol .lessEqual

def isTermOperator (kind : TokenKind) : Bool := kind = .symbol .minus || kind = .symbol .plus

def isFactorOperator (kind : TokenKind) : Bool := kind = .symbol .slash || kind = .symbol .star

def isUnaryOperator (kind : TokenKind) : Bool := kind = .symbol .bang || kind = .symbol .minus

/-- The expression that is one token. The words for the booleans and nil mean their values, and
number and string tokens the literal they carry. -/
def atom? (t : Token) : Option Expr :=
  match t.kind with
  | .keyword .falseWord => some (.literal (.bool false))
  | .keyword .trueWord => some (.literal (.bool true))
  | .keyword .nilWord => some (.literal .nil)
  | .number | .string => some (.literal t.literal)
  | .identifier => some (.name t)
  | _ => none

/-- One token or an expression in parentheses. -/
def operand (inner : Parser Expr) : Parser Expr := do
  match ← accept? atom? with
  | some e => return e
  | none =>
    if ← skip (.symbol .leftParen) then
      let e ← inner
      let _ ← expect (.symbol .rightParen) .expectedParenthesis
      return .group e
    else
      fail .expectedExpression

/-- An operand behind at most `bound` prefix operators. -/
def unary (base : Parser Expr) : (bound : Nat) → Parser Expr
  | 0 => base
  | bound + 1 => do
    match ← take? isUnaryOperator with
    | some operator => return .unary operator (← unary base bound)
    | none => base

/-- Extends an expression on the right by at most `bound` operators of one level. -/
def extend (isOperator : TokenKind → Bool) (next : Parser Expr) : (bound : Nat) → Expr → Parser Expr
  | 0, left => return left
  | bound + 1, left => do
    match ← take? isOperator with
    | some operator => extend isOperator next bound (.binary left operator (← next))
    | none => return left

/-- A level of binary operators over the level that binds tighter. -/
def level (isOperator : TokenKind → Bool) (bound : Nat) (next : Parser Expr) : Parser Expr := do
  extend isOperator next bound (← next)

def factor (bound : Nat) (inner : Parser Expr) : Parser Expr :=
  level isFactorOperator bound (unary (operand inner) bound)

def term (bound : Nat) (inner : Parser Expr) : Parser Expr :=
  level isTermOperator bound (factor bound inner)

def comparison (bound : Nat) (inner : Parser Expr) : Parser Expr :=
  level isComparisonOperator bound (term bound inner)

def equality (bound : Nat) (inner : Parser Expr) : Parser Expr :=
  level isEqualityOperator bound (comparison bound inner)

/-- An expression that has been read, or an assignment to it if an equals sign follows. The value is
read before the target is judged, and a bad target is reported without stopping. -/
def assigned (inner : Parser Expr) (target : Expr) : Parser Expr := do
  match ← take? (· = .symbol .equal) with
  | none => return target
  | some mark =>
    let value ← inner
    match target with
    | .name token => return .assign token value
    | _ =>
      report ⟨.invalidTarget, mark⟩
      return target

def assignment (bound : Nat) (inner : Parser Expr) : Parser Expr := do
  assigned inner (← equality bound inner)

/-- An expression of at most `bound` tokens. -/
def expressionWithin : (bound : Nat) → Parser Expr
  | 0 => fail .expectedExpression
  | bound + 1 => assignment (bound + 1) (expressionWithin bound)

def expression : Parser Expr := do
  expressionWithin (← remaining)

end BlockScript.Program
