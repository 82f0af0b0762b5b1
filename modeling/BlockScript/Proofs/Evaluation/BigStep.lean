import BlockScript.Evaluation.Operators
import BlockScript.Program.PrefixForm
import BlockScript.Proofs.Evaluation.Frames

/-!
A big-step semantics of block-structured programs over a stack of finite maps. Whatever stops an
evaluation, the stack it leaves behind has the changes made before.
-/
namespace BlockScript

/-- Evaluating an expression over a stack gives a value or an error, and a stack. -/
inductive Evaluates : Frames → Expr → Except RuntimeError Value → Frames → Prop
  | literal {σ value} : Evaluates σ (.literal value) (.ok value) σ
  | name {σ token value} (bound : Frames.lookup token.lexeme σ = some value) :
      Evaluates σ (.name token) (.ok value) σ
  | nameUnbound {σ token} (unbound : Frames.lookup token.lexeme σ = none) :
      Evaluates σ (.name token) (.error (.undefinedVariable token)) σ
  | group {σ σ' inner result} (evaluated : Evaluates σ inner result σ') :
      Evaluates σ (.group inner) result σ'
  | unary {σ σ' operator operand value} (evaluated : Evaluates σ operand (.ok value) σ') :
      Evaluates σ (.unary operator operand)
        ((value.applyUnary operator.kind).mapError (RuntimeError.type · operator)) σ'
  | unaryStopped {σ σ' operator operand error} (stopped : Evaluates σ operand (.error error) σ') :
      Evaluates σ (.unary operator operand) (.error error) σ'
  | binary {σ σ' σ'' left operator right first second}
      (evaluatedLeft : Evaluates σ left (.ok first) σ')
      (evaluatedRight : Evaluates σ' right (.ok second) σ'') :
      Evaluates σ (.binary left operator right)
        ((Value.applyBinary operator.kind first second).mapError (RuntimeError.type · operator)) σ''
  | leftStopped {σ σ' left operator right error} (stopped : Evaluates σ left (.error error) σ') :
      Evaluates σ (.binary left operator right) (.error error) σ'
  | rightStopped {σ σ' σ'' left operator right first error}
      (evaluatedLeft : Evaluates σ left (.ok first) σ')
      (stopped : Evaluates σ' right (.error error) σ'') :
      Evaluates σ (.binary left operator right) (.error error) σ''
  | assign {σ σ' σ'' target source value} (evaluated : Evaluates σ source (.ok value) σ')
      (bound : Frames.assign? target.lexeme value σ' = some σ'') :
      Evaluates σ (.assign target source) (.ok value) σ''
  | assignUnbound {σ σ' target source value} (evaluated : Evaluates σ source (.ok value) σ')
      (unbound : Frames.assign? target.lexeme value σ' = none) :
      Evaluates σ (.assign target source) (.error (.undefinedVariable target)) σ'
  | assignStopped {σ σ' target source error} (stopped : Evaluates σ source (.error error) σ') :
      Evaluates σ (.assign target source) (.error error) σ'

mutual

/-- Executing a statement over a stack prints lines, may stop with an error, and gives a stack. -/
inductive Executes : Frames → Stmt → List String → Option RuntimeError → Frames → Prop
  | evaluate {σ σ' expression value} (evaluated : Evaluates σ expression (.ok value) σ') :
      Executes σ (.evaluate expression) [] none σ'
  | evaluateStopped {σ σ' expression error} (stopped : Evaluates σ expression (.error error) σ') :
      Executes σ (.evaluate expression) [] (some error) σ'
  | print {σ σ' expression value} (evaluated : Evaluates σ expression (.ok value) σ') :
      Executes σ (.print expression) [value.display] none σ'
  | printStopped {σ σ' expression error} (stopped : Evaluates σ expression (.error error) σ') :
      Executes σ (.print expression) [] (some error) σ'
  | declareNil {top below name} :
      Executes (top :: below) (.declare name none) [] none
        (Finmap.insert name.lexeme .nil top :: below)
  | declare {σ top below name initial value}
      (evaluated : Evaluates σ initial (.ok value) (top :: below)) :
      Executes σ (.declare name (some initial)) [] none
        (Finmap.insert name.lexeme value top :: below)
  | declareStopped {σ σ' name initial error} (stopped : Evaluates σ initial (.error error) σ') :
      Executes σ (.declare name (some initial)) [] (some error) σ'
  | block {σ σ' top body lines error}
      (executed : ExecutesAll (∅ :: σ) body lines error (top :: σ')) :
      Executes σ (.block body) lines error σ'

/-- Executing statements in order, up to the first that stops. -/
inductive ExecutesAll : Frames → List Stmt → List String → Option RuntimeError → Frames → Prop
  | done {σ} : ExecutesAll σ [] [] none σ
  | next {σ σ' σ'' first rest lines more error} (executed : Executes σ first lines none σ')
      (continued : ExecutesAll σ' rest more error σ'') :
      ExecutesAll σ (first :: rest) (lines ++ more) error σ''
  | stopped {σ σ' first rest lines error} (executed : Executes σ first lines (some error) σ') :
      ExecutesAll σ (first :: rest) lines (some error) σ'

end

/-- An expression has at most one evaluation. -/
theorem Evaluates.unique {σ σ₁ : Frames} {e : Expr} {r₁ : Except RuntimeError Value}
    (h₁ : Evaluates σ e r₁ σ₁) {r₂ : Except RuntimeError Value} {σ₂ : Frames}
    (h₂ : Evaluates σ e r₂ σ₂) : r₂ = r₁ ∧ σ₂ = σ₁ := by
  induction h₁ generalizing r₂ σ₂ with
  | literal =>
    cases h₂
    exact ⟨rfl, rfl⟩
  | name bound =>
    cases h₂ with
    | name bound₂ => exact ⟨congrArg _ (Option.some.inj (bound₂.symm.trans bound)), rfl⟩
    | nameUnbound unbound₂ => cases unbound₂.symm.trans bound
  | nameUnbound unbound =>
    cases h₂ with
    | name bound₂ => cases unbound.symm.trans bound₂
    | nameUnbound => exact ⟨rfl, rfl⟩
  | group _ ih =>
    cases h₂ with
    | group evaluated₂ => exact ih evaluated₂
  | unary _ ih =>
    cases h₂ with
    | unary evaluated₂ =>
      obtain ⟨⟨⟩, rfl⟩ := ih evaluated₂
      exact ⟨rfl, rfl⟩
    | unaryStopped stopped₂ => cases (ih stopped₂).1
  | unaryStopped _ ih =>
    cases h₂ with
    | unary evaluated₂ => cases (ih evaluated₂).1
    | unaryStopped stopped₂ => exact ih stopped₂
  | binary _ _ ihLeft ihRight =>
    cases h₂ with
    | binary left₂ right₂ =>
      obtain ⟨⟨⟩, rfl⟩ := ihLeft left₂
      obtain ⟨⟨⟩, rfl⟩ := ihRight right₂
      exact ⟨rfl, rfl⟩
    | leftStopped left₂ => cases (ihLeft left₂).1
    | rightStopped left₂ right₂ =>
      obtain ⟨⟨⟩, rfl⟩ := ihLeft left₂
      cases (ihRight right₂).1
  | leftStopped _ ih =>
    cases h₂ with
    | binary left₂ _ => cases (ih left₂).1
    | leftStopped left₂ => exact ih left₂
    | rightStopped left₂ _ => cases (ih left₂).1
  | rightStopped _ _ ihLeft ihRight =>
    cases h₂ with
    | binary left₂ right₂ =>
      obtain ⟨⟨⟩, rfl⟩ := ihLeft left₂
      cases (ihRight right₂).1
    | leftStopped left₂ => cases (ihLeft left₂).1
    | rightStopped left₂ right₂ =>
      obtain ⟨⟨⟩, rfl⟩ := ihLeft left₂
      exact ihRight right₂
  | assign _ bound ih =>
    cases h₂ with
    | assign evaluated₂ bound₂ =>
      obtain ⟨⟨⟩, rfl⟩ := ih evaluated₂
      exact ⟨rfl, Option.some.inj (bound₂.symm.trans bound)⟩
    | assignUnbound evaluated₂ unbound₂ =>
      obtain ⟨⟨⟩, rfl⟩ := ih evaluated₂
      cases unbound₂.symm.trans bound
    | assignStopped stopped₂ => cases (ih stopped₂).1
  | assignUnbound _ unbound ih =>
    cases h₂ with
    | assign evaluated₂ bound₂ =>
      obtain ⟨⟨⟩, rfl⟩ := ih evaluated₂
      cases unbound.symm.trans bound₂
    | assignUnbound evaluated₂ _ =>
      obtain ⟨⟨⟩, rfl⟩ := ih evaluated₂
      exact ⟨rfl, rfl⟩
    | assignStopped stopped₂ => cases (ih stopped₂).1
  | assignStopped _ ih =>
    cases h₂ with
    | assign evaluated₂ _ => cases (ih evaluated₂).1
    | assignUnbound evaluated₂ _ => cases (ih evaluated₂).1
    | assignStopped stopped₂ => exact ih stopped₂

mutual

/-- A statement has at most one execution. -/
theorem Executes.unique {σ σ₁ σ₂ : Frames} {s : Stmt} {lines₁ lines₂ : List String}
    {error₁ error₂ : Option RuntimeError} (h₁ : Executes σ s lines₁ error₁ σ₁)
    (h₂ : Executes σ s lines₂ error₂ σ₂) : lines₂ = lines₁ ∧ error₂ = error₁ ∧ σ₂ = σ₁ := by
  cases h₁ with
  | evaluate evaluated =>
    cases h₂ with
    | evaluate evaluated₂ => exact ⟨rfl, rfl, (evaluated.unique evaluated₂).2⟩
    | evaluateStopped stopped₂ => cases (evaluated.unique stopped₂).1
  | evaluateStopped stopped =>
    cases h₂ with
    | evaluate evaluated₂ => cases (stopped.unique evaluated₂).1
    | evaluateStopped stopped₂ =>
      obtain ⟨⟨⟩, rfl⟩ := stopped.unique stopped₂
      exact ⟨rfl, rfl, rfl⟩
  | print evaluated =>
    cases h₂ with
    | print evaluated₂ =>
      obtain ⟨⟨⟩, rfl⟩ := evaluated.unique evaluated₂
      exact ⟨rfl, rfl, rfl⟩
    | printStopped stopped₂ => cases (evaluated.unique stopped₂).1
  | printStopped stopped =>
    cases h₂ with
    | print evaluated₂ => cases (stopped.unique evaluated₂).1
    | printStopped stopped₂ =>
      obtain ⟨⟨⟩, rfl⟩ := stopped.unique stopped₂
      exact ⟨rfl, rfl, rfl⟩
  | declareNil =>
    cases h₂
    exact ⟨rfl, rfl, rfl⟩
  | declare evaluated =>
    cases h₂ with
    | declare evaluated₂ =>
      obtain ⟨⟨⟩, ⟨⟩⟩ := evaluated.unique evaluated₂
      exact ⟨rfl, rfl, rfl⟩
    | declareStopped stopped₂ => cases (evaluated.unique stopped₂).1
  | declareStopped stopped =>
    cases h₂ with
    | declare evaluated₂ => cases (stopped.unique evaluated₂).1
    | declareStopped stopped₂ =>
      obtain ⟨⟨⟩, rfl⟩ := stopped.unique stopped₂
      exact ⟨rfl, rfl, rfl⟩
  | block executed =>
    cases h₂ with
    | block executed₂ =>
      obtain ⟨rfl, rfl, ⟨⟩⟩ := executed.unique executed₂
      exact ⟨rfl, rfl, rfl⟩

/-- A program has at most one execution. -/
theorem ExecutesAll.unique {σ σ₁ σ₂ : Frames} {program : List Stmt} {lines₁ lines₂ : List String}
    {error₁ error₂ : Option RuntimeError} (h₁ : ExecutesAll σ program lines₁ error₁ σ₁)
    (h₂ : ExecutesAll σ program lines₂ error₂ σ₂) :
    lines₂ = lines₁ ∧ error₂ = error₁ ∧ σ₂ = σ₁ := by
  cases h₁ with
  | done =>
    cases h₂
    exact ⟨rfl, rfl, rfl⟩
  | next executed continued =>
    cases h₂ with
    | next executed₂ continued₂ =>
      obtain ⟨rfl, -, rfl⟩ := executed.unique executed₂
      obtain ⟨rfl, rfl, rfl⟩ := continued.unique continued₂
      exact ⟨rfl, rfl, rfl⟩
    | stopped executed₂ => cases (executed.unique executed₂).2.1
  | stopped executed =>
    cases h₂ with
    | next executed₂ _ => cases (executed.unique executed₂).2.1
    | stopped executed₂ => exact executed.unique executed₂

end

end BlockScript
