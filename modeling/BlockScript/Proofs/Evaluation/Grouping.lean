import BlockScript.Evaluation.Machine
import BlockScript.Proofs.Grammar.Subexpressions

/-!
Parentheses do not matter to a run. A program without them does the same in every machine, with the
same error if one stops it.
-/
namespace BlockScript

/-- The expression without its parentheses, at any depth. -/
def Expr.ungrouped : Expr → Expr
  | literal value => literal value
  | name token => name token
  | group inner => inner.ungrouped
  | unary operator operand => unary operator operand.ungrouped
  | binary left operator right => binary left.ungrouped operator right.ungrouped
  | assign target value => assign target value.ungrouped

mutual

def Stmt.ungrouped : Stmt → Stmt
  | .evaluate expression => .evaluate expression.ungrouped
  | .print expression => .print expression.ungrouped
  | .declare name none => .declare name none
  | .declare name (some initial) => .declare name (some initial.ungrouped)
  | .block body => .block (Stmt.ungroupAll body)

/-- The program without its parentheses. -/
def Stmt.ungroupAll : List Stmt → List Stmt
  | [] => []
  | first :: rest => first.ungrouped :: Stmt.ungroupAll rest

end

theorem Expr.group_not_inside_ungrouped (e inner : Expr) : ¬ (group inner).Inside e.ungrouped := by
  induction e with
  | literal | name =>
    rintro ⟨⟩
  | group _ ih => exact ih
  | unary _ _ ih | assign _ _ ih =>
    rintro (_ | _ | h | _ | _ | h)
    exact ih h
  | binary _ _ _ ihLeft ihRight =>
    rintro (_ | _ | _ | h | h | _)
    · exact ihLeft h
    · exact ihRight h

mutual

theorem Stmt.ungrouped_not_holds (inner : Expr) : ∀ s : Stmt, ¬ s.ungrouped.Holds (.group inner)
  | .evaluate e, .evaluate h => e.group_not_inside_ungrouped inner h
  | .print e, .print h => e.group_not_inside_ungrouped inner h
  | .declare _ none, h => nomatch h
  | .declare _ (some e), .declare h => e.group_not_inside_ungrouped inner h
  | .block body, .block hs h => Stmt.ungroupAll_not_holds inner body _ hs h

theorem Stmt.ungroupAll_not_holds (inner : Expr) :
    ∀ (program : List Stmt), ∀ s ∈ Stmt.ungroupAll program, ¬ s.Holds (.group inner)
  | first :: rest, s, hs, h => by
    rcases List.mem_cons.mp hs with rfl | hs
    · exact Stmt.ungrouped_not_holds inner first h
    · exact Stmt.ungroupAll_not_holds inner rest s hs h

end

/-- A group is evaluated as what it holds. -/
theorem Expr.evaluate_ungrouped (here : ScopeId) (e : Expr) :
    e.ungrouped.evaluate here = e.evaluate here := by
  induction e with
  | literal | name => rfl
  | group inner ih => exact ih
  | unary operator operand ih => rw [ungrouped, evaluate, evaluate, ih]
  | binary left operator right ihLeft ihRight =>
    rw [ungrouped, evaluate, evaluate, ihLeft, ihRight]
  | assign target value ih => rw [ungrouped, evaluate, evaluate, ih]

namespace Machine

theorem value_ungrouped (e : Expr) : value e.ungrouped = value e := by
  funext m
  rw [value, value, e.evaluate_ungrouped]

mutual

theorem execute_ungrouped : ∀ s : Stmt, execute s.ungrouped = execute s
  | .evaluate e => by rw [Stmt.ungrouped, execute, execute, value_ungrouped]
  | .print e => by rw [Stmt.ungrouped, execute, execute, value_ungrouped]
  | .declare name none => rfl
  | .declare name (some initial) => by rw [Stmt.ungrouped, execute, execute, value_ungrouped]
  | .block body => by rw [Stmt.ungrouped, execute, execute, executeAll_ungroupAll]

theorem executeAll_ungroupAll : ∀ program : List Stmt,
    executeAll (Stmt.ungroupAll program) = executeAll program
  | [] => rfl
  | first :: rest => by
    rw [Stmt.ungroupAll, executeAll, executeAll, execute_ungrouped, executeAll_ungroupAll]

end

/-- Parentheses do not matter. Taking all of them out of a program, and none is left then, changes
neither what any machine becomes by running it nor what stops it, and the same holds for one
expression and its value. -/
theorem interpret_ungroupAll :
    (∀ (program : List Stmt) (m : Machine),
      m.interpret (Stmt.ungroupAll program) = m.interpret program) ∧
    (∀ (e : Expr) (m : Machine), m.evaluate e.ungrouped = m.evaluate e) ∧
    (∀ program : List Stmt, ∀ s ∈ Stmt.ungroupAll program, ∀ inner, ¬ s.Holds (.group inner)) ∧
    ∀ e inner : Expr, ¬ (Expr.group inner).Inside e.ungrouped := by
  refine ⟨?_, ?_, ?_, Expr.group_not_inside_ungrouped⟩
  · intro program m
    rw [interpret, interpret, executeAll_ungroupAll]
  · intro e m
    rw [evaluate, evaluate, value_ungrouped]
  · intro program s hs inner
    exact Stmt.ungroupAll_not_holds inner program s hs

/-- A group as an operand, and one around it all. The name on the right has no value, which stops
both programs. -/
theorem interpret_ungroupAll_stopped :
    let plus : Token := ⟨.symbol .plus, "+", .nil, 1⟩
    let name : Token := ⟨.identifier, "a", .nil, 1⟩
    let yes : Expr := .literal (.bool true)
    let program : List Stmt := [.print (.group (.binary (.group yes) plus (.group (.name name))))]
    let bare : Stmt := .print (.binary yes plus (.name name))
    Stmt.ungroupAll program = [bare] ∧
      ((Machine.new (.buffer "")).interpret [bare]).2 = some (.runtime (.undefinedVariable name)) ∧
      (Machine.new (.buffer "")).interpret [bare] = (Machine.new (.buffer "")).interpret program ∧
      ¬ bare.Holds (.group (.name name)) := by
  intro plus name yes program bare
  have hbare : bare ∈ Stmt.ungroupAll program := List.mem_singleton_self bare
  exact ⟨rfl, rfl, interpret_ungroupAll.1 program _,
    interpret_ungroupAll.2.2.1 program bare hbare (.name name)⟩

end Machine
end BlockScript
