import BlockScript.Program.Expression

/-!
Reading statements and whole programs. A statement that cannot be read is reported and left out,
and reading goes on at the likely start of the next one, so one pass finds the errors of many
statements.
-/
namespace BlockScript.Program
open BlockScript.Program.Parser

/-- Words that start a statement, with or without a meaning. -/
def startsStatement (kind : TokenKind) : Bool :=
  match kind with
  | .keyword k =>
    match k with
    | .classWord | .funWord | .varWord | .forWord | .ifWord | .whileWord | .printWord
    | .returnWord => true
    | _ => false
  | _ => false

/-- Drops tokens through the next semicolon or up to a word that starts a statement, at least one
and never the end of input. -/
def resume : List Token → List Token
  | [] => []
  | t :: rest =>
    if t.kind = .endOfInput then t :: rest
    else if t.kind = .symbol .semicolon then rest
    else if rest.head?.any fun next => startsStatement next.kind then rest
    else resume rest

/-- Turns the error that stops a parser into a reported one. -/
def recovering {α : Type} (p : Parser α) : Parser (Option α) := fun last tokens =>
  let reply := p last tokens
  match reply.outcome with
  | .ok a => ⟨reply.reported, reply.rest, .ok (some a)⟩
  | .error e => ⟨reply.reported ++ [e], resume reply.rest, .ok none⟩

/-- What follows the word that declares a variable. -/
def declaration : Parser Stmt := do
  let name ← expect .identifier .expectedVariableName
  let initial ← if ← skip (.symbol .equal) then some <$> expression else pure none
  let _ ← expect (.symbol .semicolon) .unfinishedDeclaration
  return .declare name initial

/-- At most `bound` statements, up to the end or a stopping token. -/
def statements (stop : TokenKind → Bool) (item : Parser (Option Stmt)) :
    (bound : Nat) → Parser (List Stmt)
  | 0 => return []
  | bound + 1 => do
    if ← stopsAt stop then return []
    else
      let first ← item
      return first.toList ++ (← statements stop item bound)

/-- What follows an opening brace. -/
def block (bound : Nat) (item : Parser (Option Stmt)) : Parser Stmt := do
  let body ← statements (· = .symbol .rightBrace) item bound
  let _ ← expect (.symbol .rightBrace) .unclosedBlock
  return .block body

/-- A statement whose blocks hold what `item` reads. -/
def statement (bound : Nat) (item : Parser (Option Stmt)) : Parser Stmt := do
  if ← skip (.keyword .varWord) then declaration
  else if ← skip (.keyword .printWord) then
    let value ← expression
    let _ ← expect (.symbol .semicolon) .unfinishedPrint
    return .print value
  else if ← skip (.symbol .leftBrace) then block bound item
  else
    let value ← expression
    let _ ← expect (.symbol .semicolon) .unfinishedExpression
    return .evaluate value

/-- A statement of at most `bound` tokens, or nothing after an error. -/
def statementWithin : (bound : Nat) → Parser (Option Stmt)
  | 0 => recovering (fail .expectedExpression)
  | bound + 1 => recovering (statement (bound + 1) (statementWithin bound))

/-- The token that stands for the end of a list without one. It is on the line of the last token. -/
def lastToken (tokens : List Token) : Token :=
  .endOfInput (tokens.getLast?.elim 1 Token.line)

/-- All statements up to the end of input. -/
def statementsOf : Parser (List Stmt) := do
  let count ← remaining
  statements (fun _ => false) (statementWithin count) count

/-- The program that a token list is, or all its syntax errors in the order of their discovery.
Tokens behind the first end of input do not count. -/
def ofTokens (tokens : List Token) : Except (List SyntaxError) (List Stmt) :=
  let reply := statementsOf (lastToken tokens) tokens
  match reply.outcome, reply.reported with
  | .ok program, [] => .ok program
  | .ok _, errors => .error errors
  | .error e, errors => .error (errors ++ [e])

end BlockScript.Program
