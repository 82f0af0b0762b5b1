import BlockScript.Proofs.Grammar.Rules

/-!
The tokens that stand in a tree. A derivation puts tokens of its list in the places of names and
operators, and only those of a kind that belongs there.
-/
namespace BlockScript

variable {P : Token → Prop}

/-- The names of an expression are identifiers, its operators have a level of their own, and all of
them are tokens with a property. -/
def Expr.Over (P : Token → Prop) : Expr → Prop
  | literal _ => True
  | name token => P token ∧ token.kind = .identifier
  | group inner => inner.Over P
  | unary operator operand =>
    P operator ∧ (operator.kind = .symbol .bang ∨ operator.kind = .symbol .minus) ∧ operand.Over P
  | binary left operator right =>
    left.Over P ∧
      (P operator ∧ ∃ b : Grammar.Binding, ∃ s ∈ b.operators, operator.kind = .symbol s) ∧
      right.Over P
  | assign target value => P target ∧ target.kind = .identifier ∧ value.Over P

mutual

def Stmt.Over (P : Token → Prop) : Stmt → Prop
  | .evaluate expression => expression.Over P
  | .print expression => expression.Over P
  | .declare name none => P name ∧ name.kind = .identifier
  | .declare name (some initial) => P name ∧ name.kind = .identifier ∧ initial.Over P
  | .block body => Stmt.AllOver P body

def Stmt.AllOver (P : Token → Prop) : List Stmt → Prop
  | [] => True
  | first :: rest => first.Over P ∧ Stmt.AllOver P rest

end

namespace Grammar

/-- The tree of an expression is over the tokens it is derived from. -/
theorem Derives.over {l : Level} {tokens : List Token} {e : Expr} {marks : List SyntaxError}
    (h : Derives l tokens e marks) (hP : ∀ t ∈ tokens, P t) : e.Over P := by
  induction h with
  | assign hname _ _ ih =>
    obtain ⟨ht, hrest⟩ := List.forall_mem_cons.mp hP
    exact ⟨ht, hname, ih (List.forall_mem_cons.mp hrest).2⟩
  | badTarget _ _ _ _ ih => exact ih (List.forall_mem_append.mp hP).1
  | equality _ ih | operand _ ih | primary _ ih => exact ih hP
  | binary _ hop hs _ ihLeft ihRight =>
    obtain ⟨hleft, hrest⟩ := List.forall_mem_append.mp hP
    obtain ⟨ht, hright⟩ := List.forall_mem_cons.mp hrest
    exact ⟨ihLeft hleft, ⟨ht, _, _, hs, hop⟩, ihRight hright⟩
  | unary hop _ ih =>
    obtain ⟨ht, hrest⟩ := List.forall_mem_cons.mp hP
    exact ⟨ht, hop, ih hrest⟩
  | literal => trivial
  | name hk => exact ⟨hP _ List.mem_cons_self, hk⟩
  | group _ _ _ ih =>
    exact ih (List.forall_mem_cons.mp (List.forall_mem_append.mp hP).1).2

mutual

theorem Declaration.over {P : Token → Prop} {tokens : List Token} {s : Stmt}
    {marks : List SyntaxError} (h : Declaration tokens s marks) (hP : ∀ t ∈ tokens, P t) :
    s.Over P := by
  cases h with
  | «variable» _ hk _ => exact ⟨hP _ (by simp), hk⟩
  | initialized _ hk _ hd _ =>
    have hinside := (List.forall_mem_append.mp hP).1
    exact ⟨hinside _ (by simp), hk, hd.over fun t ht => hinside t (by simp [ht])⟩
  | print _ hd _ =>
    exact hd.over (List.forall_mem_cons.mp (List.forall_mem_append.mp hP).1).2
  | block _ hds _ =>
    exact Declarations.over hds (List.forall_mem_cons.mp (List.forall_mem_append.mp hP).1).2
  | expression hd _ => exact hd.over (List.forall_mem_append.mp hP).1

/-- The trees of a program are over its tokens. -/
theorem Declarations.over {P : Token → Prop} {tokens : List Token} {program : List Stmt}
    {marks : List SyntaxError} (h : Declarations tokens program marks) (hP : ∀ t ∈ tokens, P t) :
    Stmt.AllOver P program := by
  cases h with
  | nil => trivial
  | cons hd hds =>
    obtain ⟨hfirst, hrest⟩ := List.forall_mem_append.mp hP
    exact ⟨Declaration.over hd hfirst, Declarations.over hds hrest⟩

end

end Grammar
end BlockScript
