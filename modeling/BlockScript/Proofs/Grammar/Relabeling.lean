import BlockScript.Proofs.Grammar.Rules

/-!
Changing tokens without changing their texts. The grammar looks at kinds and literals only, so a
derivation stays one when its tokens are changed, and its tree has the changed tokens.
-/
namespace BlockScript

/-- A change of tokens that leaves at most their lines different. -/
structure Token.KeepsText (f : Token → Token) : Prop where
  kind (t : Token) : (f t).kind = t.kind
  lexeme (t : Token) : (f t).lexeme = t.lexeme
  literal (t : Token) : (f t).literal = t.literal

def SyntaxError.mapToken (f : Token → Token) (e : SyntaxError) : SyntaxError := ⟨e.fault, f e.token⟩

def Expr.mapTokens (f : Token → Token) : Expr → Expr
  | literal value => literal value
  | name token => name (f token)
  | group inner => group (inner.mapTokens f)
  | unary operator operand => unary (f operator) (operand.mapTokens f)
  | binary left operator right => binary (left.mapTokens f) (f operator) (right.mapTokens f)
  | assign target value => assign (f target) (value.mapTokens f)

mutual

def Stmt.mapTokens (f : Token → Token) : Stmt → Stmt
  | .evaluate expression => .evaluate (expression.mapTokens f)
  | .print expression => .print (expression.mapTokens f)
  | .declare name none => .declare (f name) none
  | .declare name (some initial) => .declare (f name) (some (initial.mapTokens f))
  | .block body => .block (Stmt.mapAll f body)

/-- Changes the tokens of a program. -/
def Stmt.mapAll (f : Token → Token) : List Stmt → List Stmt
  | [] => []
  | first :: rest => first.mapTokens f :: Stmt.mapAll f rest

end

theorem Stmt.mapAll_eq_map (f : Token → Token) (program : List Stmt) :
    Stmt.mapAll f program = program.map (Stmt.mapTokens f) := by
  induction program with
  | nil => rfl
  | cons first rest ih => rw [Stmt.mapAll, ih, List.map_cons]

theorem Token.keepsText_id : Token.KeepsText id := ⟨fun _ => rfl, fun _ => rfl, fun _ => rfl⟩

theorem Expr.mapTokens_id (e : Expr) : e.mapTokens id = e := by
  induction e with
  | literal | name => rfl
  | group inner ih => rw [mapTokens, ih]
  | unary operator operand ih => rw [mapTokens, ih, id]
  | binary left operator right ihLeft ihRight => rw [mapTokens, ihLeft, ihRight, id]
  | assign target value ih => rw [mapTokens, ih, id]

mutual

theorem Stmt.mapTokens_id : ∀ s : Stmt, s.mapTokens id = s
  | .evaluate e => by rw [mapTokens, e.mapTokens_id]
  | .print e => by rw [mapTokens, e.mapTokens_id]
  | .declare name none => rfl
  | .declare name (some initial) => by rw [mapTokens, initial.mapTokens_id, id]
  | .block body => by rw [mapTokens, mapAll_id]

theorem Stmt.mapAll_id : ∀ program : List Stmt, Stmt.mapAll id program = program
  | [] => rfl
  | first :: rest => by rw [Stmt.mapAll, first.mapTokens_id, Stmt.mapAll_id]

end

private theorem Expr.mapTokens_ne_name {e : Expr} (h : ∀ t, e ≠ .name t) (f : Token → Token)
    (t : Token) :
    e.mapTokens f ≠ .name t := by
  cases e with
  | name token => exact absurd rfl (h token)
  | literal | group | unary | binary | assign => simp [mapTokens]

namespace Grammar

theorem Denotes.mapToken {f : Token → Token} (hf : Token.KeepsText f) {t : Token} {v : Value}
    (h : Denotes t v) : Denotes (f t) v := by
  cases h with
  | number hk =>
    rw [← hf.literal]
    exact .number ((hf.kind t).trans hk)
  | string hk =>
    rw [← hf.literal]
    exact .string ((hf.kind t).trans hk)
  | true hk => exact .true ((hf.kind t).trans hk)
  | false hk => exact .false ((hf.kind t).trans hk)
  | nil hk => exact .nil ((hf.kind t).trans hk)

/-- A derivation of an expression from changed tokens. -/
theorem Derives.mapTokens {f : Token → Token} (hf : Token.KeepsText f) {l : Level}
    {tokens : List Token} {e : Expr} {marks : List SyntaxError} (h : Derives l tokens e marks) :
    Derives l (tokens.map f) (e.mapTokens f) (marks.map (SyntaxError.mapToken f)) := by
  induction h with
  | assign hname hmark _ ih =>
    exact .assign ((hf.kind _).trans hname) ((hf.kind _).trans hmark) ih
  | badTarget _ htarget hmark _ ihTarget ihValue =>
    rw [List.map_append, List.map_append, List.map_append]
    exact .badTarget ihTarget (Expr.mapTokens_ne_name htarget f) ((hf.kind _).trans hmark) ihValue
  | equality _ ih => exact .equality ih
  | binary _ hop hs _ ihLeft ihRight =>
    rw [List.map_append, List.map_append]
    exact .binary ihLeft ((hf.kind _).trans hop) hs ihRight
  | operand _ ih => exact .operand ih
  | unary hop _ ih => exact .unary (by rwa [hf.kind]) ih
  | primary _ ih => exact .primary ih
  | literal hv => exact .literal (hv.mapToken hf)
  | name hk => exact .name ((hf.kind _).trans hk)
  | group hopen hclose _ ih =>
    rw [List.map_append]
    exact .group ((hf.kind _).trans hopen) ((hf.kind _).trans hclose) ih

mutual

theorem Declaration.mapTokens {f : Token → Token} (hf : Token.KeepsText f) {tokens : List Token}
    {s : Stmt} {marks : List SyntaxError} (h : Declaration tokens s marks) :
    Declaration (tokens.map f) (s.mapTokens f) (marks.map (SyntaxError.mapToken f)) := by
  cases h with
  | «variable» hw hk hc =>
    exact .variable ((hf.kind _).trans hw) ((hf.kind _).trans hk) ((hf.kind _).trans hc)
  | initialized hw hk hm hd hc =>
    rw [List.map_append]
    exact .initialized ((hf.kind _).trans hw) ((hf.kind _).trans hk) ((hf.kind _).trans hm)
      (hd.mapTokens hf) ((hf.kind _).trans hc)
  | print hw hd hc =>
    rw [List.map_append]
    exact .print ((hf.kind _).trans hw) (hd.mapTokens hf) ((hf.kind _).trans hc)
  | block ho hds hc =>
    rw [List.map_append]
    exact .block ((hf.kind _).trans ho) (Declarations.mapTokens hf hds) ((hf.kind _).trans hc)
  | expression hd hc =>
    rw [List.map_append]
    exact .expression (hd.mapTokens hf) ((hf.kind _).trans hc)

/-- A derivation of a program from changed tokens. -/
theorem Declarations.mapTokens {f : Token → Token} (hf : Token.KeepsText f) {tokens : List Token}
    {program : List Stmt} {marks : List SyntaxError} (h : Declarations tokens program marks) :
    Declarations (tokens.map f) (Stmt.mapAll f program) (marks.map (SyntaxError.mapToken f)) := by
  cases h with
  | nil => exact .nil
  | cons hd hds =>
    rw [List.map_append, List.map_append]
    exact .cons (Declaration.mapTokens hf hd) (Declarations.mapTokens hf hds)

end

end Grammar
end BlockScript
