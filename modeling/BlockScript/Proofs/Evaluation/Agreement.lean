import BlockScript.Proofs.Evaluation.Effects

/-!
Stacks that agree on some names. A program whose names are among them runs in the same way over
both stacks, and over any stack it leaves alone what it does not name.
-/
namespace BlockScript

/-- The names of the variables that an expression reads or assigns. -/
def Expr.names : Expr → List String
  | literal _ => []
  | name token => [token.lexeme]
  | group inner => inner.names
  | unary _ operand => operand.names
  | binary left _ right => left.names ++ right.names
  | assign target value => target.lexeme :: value.names

mutual

def Stmt.names : Stmt → List String
  | .evaluate expression => expression.names
  | .print expression => expression.names
  | .declare name none => [name.lexeme]
  | .declare name (some initial) => name.lexeme :: initial.names
  | .block body => Stmt.allNames body

/-- The names that occur in a program. -/
def Stmt.allNames : List Stmt → List String
  | [] => []
  | first :: rest => first.names ++ Stmt.allNames rest

end

variable {V : Set String}

/-- Each name of a set is bound to the same value in both maps or in none. -/
def Frame.AgreeOn (V : Set String) (f g : Frame) : Prop :=
  ∀ name ∈ V, Finmap.lookup name f = Finmap.lookup name g

/-- The stacks have the same height, and the maps at the same place agree. -/
def Frames.AgreeOn (V : Set String) : Frames → Frames → Prop := List.Forall₂ (Frame.AgreeOn V)

namespace Frame.AgreeOn
variable {f g : Frame} {name : String} {value : Value}

theorem refl (f : Frame) : Frame.AgreeOn V f f := fun _ _ => rfl

theorem insert (hfg : Frame.AgreeOn V f g) (name : String) (value : Value) :
    Frame.AgreeOn V (Finmap.insert name value f) (Finmap.insert name value g) := by
  intro other hother
  by_cases he : other = name
  · rw [he, Finmap.lookup_insert, Finmap.lookup_insert]
  · rw [Finmap.lookup_insert_of_ne _ he, Finmap.lookup_insert_of_ne _ he, hfg other hother]

theorem mem_iff (hfg : Frame.AgreeOn V f g) (hname : name ∈ V) : name ∈ f ↔ name ∈ g := by
  rw [← Finmap.lookup_isSome, hfg name hname, Finmap.lookup_isSome]

end Frame.AgreeOn

namespace Frames.AgreeOn
variable {σ σ' τ : Frames} {name : String} {value : Value}

theorem lookup (h : Frames.AgreeOn V σ σ') (hname : name ∈ V) :
    σ.lookup name = σ'.lookup name := by
  induction h with
  | nil => rfl
  | cons htop _ ih => rw [Frames.lookup, Frames.lookup, htop name hname, ih]

/-- Overwriting a name changes both stacks at the same place. -/
theorem assign? (h : Frames.AgreeOn V σ σ') (hname : name ∈ V)
    (ha : σ.assign? name value = some τ) :
    ∃ τ', σ'.assign? name value = some τ' ∧ Frames.AgreeOn V τ τ' := by
  induction h generalizing τ with
  | nil => cases ha
  | @cons top top' below below' htop hbelow ih =>
    by_cases hmem : name ∈ top
    · rw [Frames.assign?_of_mem hmem] at ha
      cases ha
      exact ⟨_, Frames.assign?_of_mem ((htop.mem_iff hname).mp hmem) _ _,
        .cons (htop.insert name value) hbelow⟩
    · rw [Frames.assign?_of_not_mem hmem, Option.map_eq_some_iff] at ha
      obtain ⟨after, hafter, rfl⟩ := ha
      obtain ⟨after', hafter', hagree⟩ := ih hafter
      refine ⟨top' :: after', ?_, .cons htop hagree⟩
      rw [Frames.assign?_of_not_mem (mt (htop.mem_iff hname).mpr hmem), hafter', Option.map_some]

end Frames.AgreeOn

/-- An expression whose names are among those agreed on has the same evaluation over both stacks. -/
theorem Evaluates.agrees {σ τ : Frames} {e : Expr} {result : Except RuntimeError Value}
    (h : Evaluates σ e result τ) (hV : ∀ name ∈ e.names, name ∈ V) {σ' : Frames}
    (hσ : Frames.AgreeOn V σ σ') : ∃ τ', Evaluates σ' e result τ' ∧ Frames.AgreeOn V τ τ' := by
  induction h generalizing σ' with
  | literal => exact ⟨σ', .literal, hσ⟩
  | name bound =>
    exact ⟨σ', .name ((hσ.lookup (hV _ List.mem_cons_self)).symm.trans bound), hσ⟩
  | nameUnbound unbound =>
    exact ⟨σ', .nameUnbound ((hσ.lookup (hV _ List.mem_cons_self)).symm.trans unbound), hσ⟩
  | group _ ih =>
    obtain ⟨τ', hτ, hagree⟩ := ih hV hσ
    exact ⟨τ', .group hτ, hagree⟩
  | unary _ ih =>
    obtain ⟨τ', hτ, hagree⟩ := ih hV hσ
    exact ⟨τ', .unary hτ, hagree⟩
  | unaryStopped _ ih =>
    obtain ⟨τ', hτ, hagree⟩ := ih hV hσ
    exact ⟨τ', .unaryStopped hτ, hagree⟩
  | binary _ _ ihLeft ihRight =>
    obtain ⟨hleft, hright⟩ := List.forall_mem_append.mp hV
    obtain ⟨ρ', hρ, hmiddle⟩ := ihLeft hleft hσ
    obtain ⟨τ', hτ, hagree⟩ := ihRight hright hmiddle
    exact ⟨τ', .binary hρ hτ, hagree⟩
  | leftStopped _ ih =>
    obtain ⟨τ', hτ, hagree⟩ := ih (List.forall_mem_append.mp hV).1 hσ
    exact ⟨τ', .leftStopped hτ, hagree⟩
  | rightStopped _ _ ihLeft ihRight =>
    obtain ⟨hleft, hright⟩ := List.forall_mem_append.mp hV
    obtain ⟨ρ', hρ, hmiddle⟩ := ihLeft hleft hσ
    obtain ⟨τ', hτ, hagree⟩ := ihRight hright hmiddle
    exact ⟨τ', .rightStopped hρ hτ, hagree⟩
  | assign _ bound ih =>
    obtain ⟨htarget, hsource⟩ := List.forall_mem_cons.mp hV
    obtain ⟨ρ', hρ, hmiddle⟩ := ih hsource hσ
    obtain ⟨τ', hτ, hagree⟩ := hmiddle.assign? htarget bound
    exact ⟨τ', .assign hρ hτ, hagree⟩
  | assignUnbound _ unbound ih =>
    obtain ⟨htarget, hsource⟩ := List.forall_mem_cons.mp hV
    obtain ⟨ρ', hρ, hmiddle⟩ := ih hsource hσ
    rw [Frames.assign?_eq_none_iff, hmiddle.lookup htarget, ← Frames.assign?_eq_none_iff] at unbound
    exact ⟨ρ', .assignUnbound hρ unbound, hmiddle⟩
  | assignStopped _ ih =>
    obtain ⟨τ', hτ, hagree⟩ := ih (List.forall_mem_cons.mp hV).2 hσ
    exact ⟨τ', .assignStopped hτ, hagree⟩

mutual

theorem Executes.agrees {V : Set String} {σ τ σ' : Frames} {s : Stmt} {lines : List String}
    {error : Option RuntimeError} (h : Executes σ s lines error τ)
    (hV : ∀ name ∈ s.names, name ∈ V) (hσ : Frames.AgreeOn V σ σ') :
    ∃ τ', Executes σ' s lines error τ' ∧ Frames.AgreeOn V τ τ' := by
  cases h with
  | evaluate evaluated =>
    obtain ⟨τ', hτ, hagree⟩ := evaluated.agrees hV hσ
    exact ⟨τ', .evaluate hτ, hagree⟩
  | evaluateStopped stopped =>
    obtain ⟨τ', hτ, hagree⟩ := stopped.agrees hV hσ
    exact ⟨τ', .evaluateStopped hτ, hagree⟩
  | print evaluated =>
    obtain ⟨τ', hτ, hagree⟩ := evaluated.agrees hV hσ
    exact ⟨τ', .print hτ, hagree⟩
  | printStopped stopped =>
    obtain ⟨τ', hτ, hagree⟩ := stopped.agrees hV hσ
    exact ⟨τ', .printStopped hτ, hagree⟩
  | declareNil =>
    cases hσ with
    | cons htop hbelow => exact ⟨_, .declareNil, .cons (htop.insert _ _) hbelow⟩
  | declare evaluated =>
    obtain ⟨τ', hτ, hagree⟩ := evaluated.agrees (List.forall_mem_cons.mp hV).2 hσ
    cases hagree with
    | cons htop hbelow => exact ⟨_, .declare hτ, .cons (htop.insert _ _) hbelow⟩
  | declareStopped stopped =>
    obtain ⟨τ', hτ, hagree⟩ := stopped.agrees (List.forall_mem_cons.mp hV).2 hσ
    exact ⟨τ', .declareStopped hτ, hagree⟩
  | block executed =>
    obtain ⟨τ', hτ, hagree⟩ := executed.agrees hV (.cons (.refl ∅) hσ)
    cases hagree with
    | cons _ hbelow => exact ⟨_, .block hτ, hbelow⟩

/-- A program whose names are among those agreed on has the same execution over both stacks. -/
theorem ExecutesAll.agrees {V : Set String} {σ τ σ' : Frames} {program : List Stmt}
    {lines : List String} {error : Option RuntimeError} (h : ExecutesAll σ program lines error τ)
    (hV : ∀ name ∈ Stmt.allNames program, name ∈ V) (hσ : Frames.AgreeOn V σ σ') :
    ∃ τ', ExecutesAll σ' program lines error τ' ∧ Frames.AgreeOn V τ τ' := by
  cases h with
  | done => exact ⟨σ', .done, hσ⟩
  | next executed continued =>
    obtain ⟨hfirst, hrest⟩ := List.forall_mem_append.mp hV
    obtain ⟨ρ', hρ, hmiddle⟩ := executed.agrees hfirst hσ
    obtain ⟨τ', hτ, hagree⟩ := continued.agrees hrest hmiddle
    exact ⟨τ', .next hρ hτ, hagree⟩
  | stopped executed =>
    obtain ⟨τ', hτ, hagree⟩ := executed.agrees (List.forall_mem_append.mp hV).1 hσ
    exact ⟨τ', .stopped hτ, hagree⟩

end

private theorem Expr.targets_subset_names (e : Expr) : e.targets ⊆ e.names := by
  induction e with
  | literal | name => exact List.nil_subset _
  | group _ ih | unary _ _ ih => exact ih
  | binary _ _ _ ihLeft ihRight =>
    exact List.append_subset.mpr ⟨List.subset_append_of_subset_left _ ihLeft,
      List.subset_append_of_subset_right _ ihRight⟩
  | assign _ _ ih => exact List.cons_subset_cons _ ih

mutual

theorem Stmt.targets_subset_names : ∀ s : Stmt, s.targets ⊆ s.names
  | .evaluate e => e.targets_subset_names
  | .print e => e.targets_subset_names
  | .declare _ none => List.nil_subset _
  | .declare _ (some initial) => List.subset_cons_of_subset _ initial.targets_subset_names
  | .block body => Stmt.allTargets_subset_allNames body

theorem Stmt.allTargets_subset_allNames : ∀ program : List Stmt,
    Stmt.allTargets program ⊆ Stmt.allNames program
  | [] => List.nil_subset _
  | first :: rest => List.append_subset.mpr
    ⟨List.subset_append_of_subset_left _ first.targets_subset_names,
      List.subset_append_of_subset_right _ (Stmt.allTargets_subset_allNames rest)⟩

end

private theorem Stmt.lexeme_mem_allNames {t : Token} {initial : Option Expr} {program : List Stmt}
    (h : .declare t initial ∈ program) : t.lexeme ∈ Stmt.allNames program := by
  induction program with
  | nil => cases h
  | cons first rest ih =>
    rcases List.mem_cons.mp h with rfl | h
    · cases initial <;> simp [Stmt.allNames, Stmt.names]
    · exact List.mem_append_right _ (ih h)

/-- Changed stacks agree on names that are no targets and are not declared. -/
private theorem Frames.ChangedBy.agreeOn {T D : Set String} {σ τ : Frames}
    (h : Frames.ChangedBy T D σ τ)
    (hV : ∀ name ∈ V, name ∉ T ∧ name ∉ D) : Frames.AgreeOn V σ τ := by
  induction h with
  | nil => exact .nil
  | cons htop _ ih =>
    refine .cons (fun name hname => ?_) (ih fun name hname => ⟨(hV name hname).1, by simp⟩)
    exact (htop.lookup_eq (hV name hname).2 (hV name hname).1).symm

/-- A program leaves alone what it does not name. -/
theorem ExecutesAll.keeps {V : Set String} {σ τ : Frames} {program : List Stmt}
    {lines : List String} {error : Option RuntimeError} (h : ExecutesAll σ program lines error τ)
    (hV : ∀ name ∈ Stmt.allNames program, name ∉ V) : Frames.AgreeOn V σ τ := by
  obtain ⟨D, hD, hchanged⟩ := h.changes (T := {name | name ∈ Stmt.allTargets program})
    fun _ hname => hname
  refine hchanged.agreeOn fun name hname => ⟨fun htarget => ?_, fun hdeclared => ?_⟩
  · exact hV name (Stmt.allTargets_subset_allNames program htarget) hname
  · obtain ⟨t, initial, hmem, rfl⟩ := hD name hdeclared
    exact hV _ (Stmt.lexeme_mem_allNames hmem) hname

end BlockScript
