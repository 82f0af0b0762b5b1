import BlockScript.Proofs.Grammar.Rules

/-!
The expressions in a tree, at any depth. In the tree of a program each of them is derived from some
of the program's tokens.
-/
namespace BlockScript

/-- An expression as a part of another one, which may be all of it. -/
inductive Expr.Inside (e : Expr) : Expr → Prop where
  | whole : Inside e e
  | group {inner : Expr} : Inside e inner → Inside e (.group inner)
  | unary {operator : Token} {operand : Expr} : Inside e operand → Inside e (.unary operator operand)
  | left {left right : Expr} {operator : Token} :
      Inside e left → Inside e (.binary left operator right)
  | right {left right : Expr} {operator : Token} :
      Inside e right → Inside e (.binary left operator right)
  | assign {target : Token} {value : Expr} : Inside e value → Inside e (.assign target value)

/-- The expressions in a statement and in the blocks below it. -/
inductive Stmt.Holds (e : Expr) : Stmt → Prop where
  | evaluate {expression : Expr} : e.Inside expression → Holds e (.evaluate expression)
  | print {expression : Expr} : e.Inside expression → Holds e (.print expression)
  | declare {name : Token} {initial : Expr} :
      e.Inside initial → Holds e (.declare name (some initial))
  | block {s : Stmt} {body : List Stmt} : s ∈ body → Holds e s → Holds e (.block body)

namespace Grammar

/-- An expression that some of the tokens derive, at some level. -/
def DerivedWithin (tokens : List Token) (e : Expr) : Prop :=
  ∃ l part marks, part ⊆ tokens ∧ Derives l part e marks

variable {l : Level} {tokens more : List Token} {e whole : Expr} {marks : List SyntaxError}

private theorem Derives.within (h : Derives l tokens e marks) : DerivedWithin tokens e :=
  ⟨l, tokens, marks, List.Subset.refl tokens, h⟩

theorem DerivedWithin.mono (h : DerivedWithin tokens e) (hsub : tokens ⊆ more) :
    DerivedWithin more e := by
  obtain ⟨l, part, marks, hpart, hd⟩ := h
  exact ⟨l, part, marks, List.Subset.trans hpart hsub, hd⟩

/-- A part of a derived expression is derived from some of the tokens. -/
theorem Derives.inside (h : Derives l tokens whole marks) (he : e.Inside whole) :
    DerivedWithin tokens e := by
  induction h with
  | assign hname hmark hd ih =>
    cases he with
    | whole => exact (Derives.assign hname hmark hd).within
    | assign hin => exact (ih hin).mono fun t ht => by simp [ht]
  | badTarget _ _ _ _ ih => exact (ih he).mono (List.subset_append_left _ _)
  | equality _ ih | operand _ ih | primary _ ih => exact ih he
  | binary hleft hop hs hright ihLeft ihRight =>
    cases he with
    | whole => exact (Derives.binary hleft hop hs hright).within
    | left hin => exact (ihLeft hin).mono (List.subset_append_left _ _)
    | right hin => exact (ihRight hin).mono fun t ht => by simp [ht]
  | unary hop hd ih =>
    cases he with
    | whole => exact (Derives.unary hop hd).within
    | unary hin => exact (ih hin).mono (List.subset_cons_self _ _)
  | literal hv =>
    cases he with
    | whole => exact (Derives.literal hv).within
  | name hk =>
    cases he with
    | whole => exact (Derives.name hk).within
  | group hopen hclose hd ih =>
    cases he with
    | whole => exact (Derives.group hopen hclose hd).within
    | group hin => exact (ih hin).mono fun t ht => by simp [ht]

/-- A literal comes from a token that stands for it. -/
theorem Derives.exists_denotes {v : Value} (h : Derives l tokens (.literal v) marks) :
    ∃ t ∈ tokens, Denotes t v := by
  generalize he : Expr.literal v = e at h
  induction h with
  | assign | binary | unary | name | group => exact absurd he (by simp)
  | badTarget _ _ _ _ ih =>
    obtain ⟨t, ht, hv⟩ := ih he
    exact ⟨t, List.mem_append_left _ ht, hv⟩
  | equality _ ih | operand _ ih | primary _ ih => exact ih he
  | literal hv =>
    cases he
    exact ⟨_, List.mem_singleton_self _, hv⟩

/-- Each statement of a program is derived from some of its tokens. -/
theorem Declarations.exists_declaration {program : List Stmt} {s : Stmt}
    (h : Declarations tokens program marks) (hs : s ∈ program) :
    ∃ part others, part ⊆ tokens ∧ Declaration part s others := by
  induction program generalizing tokens marks with
  | nil => cases hs
  | cons first rest ih =>
    cases h with
    | cons hfirst hrest =>
      rcases List.mem_cons.mp hs with rfl | hs
      · exact ⟨_, _, List.subset_append_left _ _, hfirst⟩
      · obtain ⟨part, others, hpart, hd⟩ := ih hrest hs
        exact ⟨part, others, List.Subset.trans hpart (List.subset_append_right _ _), hd⟩

/-- The expressions of a derived statement are derived from some of its tokens. -/
theorem Declaration.holds {s : Stmt} (h : Declaration tokens s marks) (he : s.Holds e) :
    DerivedWithin tokens e := by
  induction he generalizing tokens marks with
  | evaluate hin =>
    cases h with
    | expression hd => exact (hd.inside hin).mono (List.subset_append_left _ _)
  | print hin =>
    cases h with
    | print _ hd => exact (hd.inside hin).mono fun t ht => by simp [ht]
  | declare hin =>
    cases h with
    | initialized _ _ _ hd => exact (hd.inside hin).mono fun t ht => by simp [ht]
  | block hs _ ih =>
    cases h with
    | block _ hds =>
      obtain ⟨part, others, hpart, hd⟩ := hds.exists_declaration hs
      exact (ih hd).mono fun t ht => by simp [hpart ht]

end Grammar
end BlockScript
