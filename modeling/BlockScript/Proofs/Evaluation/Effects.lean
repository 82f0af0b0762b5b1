import BlockScript.Proofs.Evaluation.BigStep

/-!
What a program does to variables. An expression overwrites variables that it assigns to and binds no
name. A statement binds the name that it declares, in the innermost block alone; what a block binds
is gone behind it.
-/
namespace BlockScript

/-- The names of the variables that an expression assigns to. -/
def Expr.targets : Expr → List String
  | literal _ => []
  | name _ => []
  | group inner => inner.targets
  | unary _ operand => operand.targets
  | binary left _ right => left.targets ++ right.targets
  | assign target value => target.lexeme :: value.targets

mutual

def Stmt.targets : Stmt → List String
  | .evaluate expression => expression.targets
  | .print expression => expression.targets
  | .declare _ none => []
  | .declare _ (some initial) => initial.targets
  | .block body => Stmt.allTargets body

/-- The names that a program assigns to, in whatever block. -/
def Stmt.allTargets : List Stmt → List String
  | [] => []
  | first :: rest => first.targets ++ Stmt.allTargets rest

end

/-- What a statement declares unless an error stops it. -/
def Stmt.declared (s : Stmt) (error : Option RuntimeError) : Set String :=
  {name | error = none ∧ ∃ t initial, s = .declare t initial ∧ t.lexeme = name}

/-- One map has all names of another and the declared ones, and the values of both are the same but
for declared names and for targets. -/
structure Frame.ChangedBy (T D : Set String) (f g : Frame) : Prop where
  mem_iff (name : String) : name ∈ g ↔ name ∈ f ∨ name ∈ D
  lookup_eq {name : String} (declared : name ∉ D) (target : name ∉ T) :
    Finmap.lookup name g = Finmap.lookup name f

namespace Frame.ChangedBy
variable {D D' T : Set String} {f g h : Frame} {name : String} {value : Value}

theorem refl (f : Frame) : Frame.ChangedBy T ∅ f f :=
  ⟨fun _ => by simp, fun _ _ => rfl⟩

theorem trans (hfg : Frame.ChangedBy T D f g) (hgh : Frame.ChangedBy T D' g h) :
    Frame.ChangedBy T (D ∪ D') f h where
  mem_iff name := by rw [hgh.mem_iff, hfg.mem_iff, Set.mem_union, or_assoc]
  lookup_eq declared target := by
    rw [Set.mem_union, not_or] at declared
    rw [hgh.lookup_eq declared.2 target, hfg.lookup_eq declared.1 target]

theorem overwrite (hname : name ∈ T) (hf : name ∈ f) :
    Frame.ChangedBy T ∅ f (Finmap.insert name value f) where
  mem_iff other := by
    rw [Finmap.mem_insert]
    constructor
    · rintro (rfl | hother)
      · exact .inl hf
      · exact .inl hother
    · rintro (hother | hother)
      · exact .inr hother
      · cases hother
  lookup_eq _ target := Finmap.lookup_insert_of_ne _ (ne_of_mem_of_not_mem hname target).symm

theorem declare (f : Frame) (name : String) (value : Value) :
    Frame.ChangedBy T {name} f (Finmap.insert name value f) where
  mem_iff other := by rw [Finmap.mem_insert, Set.mem_singleton_iff, or_comm]
  lookup_eq declared _ := Finmap.lookup_insert_of_ne _ declared

end Frame.ChangedBy

/-- The maps on a stack are changed, and names are declared in the top map alone. -/
inductive Frames.ChangedBy (T : Set String) : Set String → Frames → Frames → Prop
  | nil {D} : Frames.ChangedBy T D [] []
  | cons {D f g σ τ} (top : Frame.ChangedBy T D f g) (below : Frames.ChangedBy T ∅ σ τ) :
      Frames.ChangedBy T D (f :: σ) (g :: τ)

namespace Frames.ChangedBy
variable {D D' T : Set String} {σ τ ρ : Frames}

theorem refl (σ : Frames) : Frames.ChangedBy T ∅ σ σ := by
  induction σ with
  | nil => exact .nil
  | cons top below ih => exact .cons (.refl top) ih

theorem trans (h : Frames.ChangedBy T D σ τ) (h' : Frames.ChangedBy T D' τ ρ) :
    Frames.ChangedBy T (D ∪ D') σ ρ := by
  induction h generalizing D' ρ with
  | nil =>
    cases h'
    exact .nil
  | cons htop _ ih =>
    cases h' with
    | cons htop' hbelow' => exact .cons (htop.trans htop') (by simpa using ih hbelow')

theorem assign? {name : String} {value : Value} (hname : name ∈ T)
    (h : σ.assign? name value = some τ) : Frames.ChangedBy T ∅ σ τ := by
  induction σ generalizing τ with
  | nil => cases h
  | cons top below ih =>
    by_cases hmem : name ∈ top
    · rw [Frames.assign?_of_mem hmem] at h
      cases h
      exact .cons (.overwrite hname hmem) (.refl below)
    · rw [Frames.assign?_of_not_mem hmem, Option.map_eq_some_iff] at h
      obtain ⟨after, hafter, rfl⟩ := h
      exact .cons (.refl top) (ih hafter)

theorem top {f g : Frame} (h : Frames.ChangedBy T D [f] [g]) : Frame.ChangedBy T D f g := by
  cases h with
  | cons htop _ => exact htop

end Frames.ChangedBy

/-- An expression binds no name, and changes no value but those of its targets. -/
theorem Evaluates.changes {T : Set String} {σ τ : Frames} {e : Expr}
    {result : Except RuntimeError Value}
    (h : Evaluates σ e result τ) (hT : ∀ name ∈ e.targets, name ∈ T) :
    Frames.ChangedBy T ∅ σ τ := by
  induction h with
  | literal | name | nameUnbound => exact .refl _
  | group _ ih | unary _ ih | unaryStopped _ ih => exact ih hT
  | binary _ _ ihLeft ihRight | rightStopped _ _ ihLeft ihRight =>
    obtain ⟨hleft, hright⟩ := List.forall_mem_append.mp hT
    simpa using (ihLeft hleft).trans (ihRight hright)
  | leftStopped _ ih => exact ih (List.forall_mem_append.mp hT).1
  | assign _ bound ih =>
    obtain ⟨htarget, hvalue⟩ := List.forall_mem_cons.mp hT
    simpa using (ih hvalue).trans (.assign? htarget bound)
  | assignUnbound _ _ ih | assignStopped _ ih => exact ih (List.forall_mem_cons.mp hT).2

theorem Stmt.declared_of_stopped (s : Stmt) (error : RuntimeError) :
    s.declared (some error) = ∅ := by
  simp [Stmt.declared]

private theorem Stmt.declared_declare (t : Token) (initial : Option Expr) :
    (Stmt.declare t initial).declared none = {t.lexeme} := by
  ext name
  simp [Stmt.declared, eq_comm]

mutual

/-- A statement binds what it declares, and changes no other value but those of its targets. -/
theorem Executes.changes {T : Set String} {σ τ : Frames} {s : Stmt} {lines : List String}
    {error : Option RuntimeError} (h : Executes σ s lines error τ)
    (hT : ∀ name ∈ s.targets, name ∈ T) : Frames.ChangedBy T (s.declared error) σ τ := by
  cases h with
  | evaluate evaluated | print evaluated => simpa [Stmt.declared] using evaluated.changes hT
  | evaluateStopped stopped | printStopped stopped | declareStopped stopped =>
    rw [Stmt.declared_of_stopped]
    exact stopped.changes hT
  | declareNil =>
    rw [Stmt.declared_declare]
    exact .cons (.declare _ _ _) (.refl _)
  | declare evaluated =>
    rw [Stmt.declared_declare]
    simpa using (evaluated.changes hT).trans (.cons (.declare _ _ _) (.refl _))
  | block executed =>
    obtain ⟨D, -, hchanged⟩ := executed.changes hT
    cases hchanged with
    | cons _ hbelow => simpa [Stmt.declared] using hbelow

/-- A program changes no value but those of its targets and of the names it declares. -/
theorem ExecutesAll.changes {T : Set String} {σ τ : Frames} {program : List Stmt}
    {lines : List String} {error : Option RuntimeError} (h : ExecutesAll σ program lines error τ)
    (hT : ∀ name ∈ Stmt.allTargets program, name ∈ T) :
    ∃ D, (∀ name ∈ D, ∃ t initial, .declare t initial ∈ program ∧ t.lexeme = name) ∧
      Frames.ChangedBy T D σ τ := by
  cases h with
  | done => exact ⟨∅, by simp, .refl _⟩
  | next executed continued =>
    obtain ⟨hfirst, hrest⟩ := List.forall_mem_append.mp hT
    obtain ⟨D, hD, hchanged⟩ := continued.changes hrest
    refine ⟨_, ?_, (executed.changes hfirst).trans hchanged⟩
    rintro name (⟨-, t, initial, rfl, rfl⟩ | hname)
    · exact ⟨t, initial, List.mem_cons_self, rfl⟩
    · obtain ⟨t, initial, hmem, rfl⟩ := hD name hname
      exact ⟨t, initial, List.mem_cons_of_mem _ hmem, rfl⟩
  | stopped executed =>
    refine ⟨∅, by simp, ?_⟩
    rw [← Stmt.declared_of_stopped]
    exact executed.changes (List.forall_mem_append.mp hT).1

end

end BlockScript
