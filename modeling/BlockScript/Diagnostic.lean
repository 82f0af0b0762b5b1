import BlockScript.Token

/-!
What can be wrong with a source text or with its run, and how each is reported. Faults are
causes; their wording is in one place each.
-/
namespace BlockScript

/-- A reported static error: its line, where on the line, and what is wrong. -/
structure Diagnostic where
  line : Nat
  location : String
  message : String
deriving DecidableEq, Repr

namespace Diagnostic

/-- The line that a console shows for the error. -/
def text (d : Diagnostic) : String :=
  "[line " ++ toString d.line ++ "] Error" ++ d.location ++ ": " ++ d.message

/-- An error without a location on its line. -/
def onLine (line : Nat) (message : String) : Diagnostic := ⟨line, "", message⟩

end Diagnostic

/-- Where an error at a token is: at its text, or at the end. -/
def Token.location (t : Token) : String :=
  if t.kind = .endOfInput then " at end" else " at '" ++ t.lexeme ++ "'"

/-- An error located at a token. -/
def Diagnostic.atToken (t : Token) (message : String) : Diagnostic := ⟨t.line, t.location, message⟩

/-- What makes a piece of the source no token. -/
inductive LexicalFault where
  | unexpectedCharacter
  | unterminatedString
  | malformedNumber
deriving DecidableEq, Repr

def LexicalFault.message : LexicalFault → String
  | unexpectedCharacter => "Unexpected character."
  | unterminatedString => "Unterminated string."
  | malformedNumber => "Invalid number."

structure LexicalError where
  fault : LexicalFault
  line : Nat
deriving DecidableEq, Repr

def LexicalError.diagnostic (e : LexicalError) : Diagnostic := .onLine e.line e.fault.message

/-- What was missing where a token does not fit the grammar; only `invalidTarget` does not stop
the statement it is found in. -/
inductive SyntaxFault where
  | expectedExpression
  | expectedParenthesis
  | expectedVariableName
  | unfinishedDeclaration
  | unfinishedPrint
  | unfinishedExpression
  | unclosedBlock
  | invalidTarget
deriving DecidableEq, Repr

def SyntaxFault.message : SyntaxFault → String
  | expectedExpression => "Expected expression."
  | expectedParenthesis => "Expected ')' after expression."
  | expectedVariableName => "Expected variable name."
  | unfinishedDeclaration => "Expected ';' after variable declaration."
  | unfinishedPrint => "Expected ';' after value."
  | unfinishedExpression => "Expected ';' after expression."
  | unclosedBlock => "Expected '\x7d' after block."
  | invalidTarget => "Invalid assignment target."

/-- A syntax fault at the token that does not fit. -/
structure SyntaxError where
  fault : SyntaxFault
  token : Token
deriving DecidableEq

def SyntaxError.diagnostic (e : SyntaxError) : Diagnostic := .atToken e.token e.fault.message

/-- Why an operator rejects its operands or is none. Errors worded outside the evaluator are
`custom`. -/
inductive TypeFault where
  | operandNotNumber
  | operandsNotNumbers
  | operandsNotAlike
  | notUnary
  | notBinary
  | custom (message : String)
deriving DecidableEq, Repr

def TypeFault.message : TypeFault → String
  | operandNotNumber => "Operand must be a number."
  | operandsNotNumbers => "Operands must be numbers."
  | operandsNotAlike => "Operands must be two numbers or two strings."
  | notUnary => "Expected a unary operator."
  | notBinary => "Expected a binary operator."
  | custom message => message

/-- What stops a running program, with the token to blame. -/
inductive RuntimeError where
  | type (fault : TypeFault) (token : Token)
  | undefinedVariable (token : Token)
deriving DecidableEq

namespace RuntimeError

def token : RuntimeError → Token
  | type _ t => t
  | undefinedVariable t => t

def line (e : RuntimeError) : Nat := e.token.line

def message : RuntimeError → String
  | type fault _ => fault.message
  | undefinedVariable t => "Undefined variable '" ++ t.lexeme ++ "'."

/-- The two lines that a console shows for the error. -/
def text (e : RuntimeError) : String := e.message ++ "\n[line " ++ toString e.line ++ "]"

end RuntimeError
end BlockScript
