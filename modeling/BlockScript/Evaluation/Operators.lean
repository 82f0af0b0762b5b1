import BlockScript.Diagnostic

/-!
Operators on values. A kind of token that is no operator is a fault like a wrong operand, so a
tree may carry any token as its operator.
-/
namespace BlockScript.Value

/-- Applies an operation that takes two numbers. -/
def onNumbers (operation : Float → Float → Value) : Value → Value → Except TypeFault Value
  | number x, number y => .ok (operation x y)
  | _, _ => .error .operandsNotNumbers

/-- The sum of two numbers, or one string after the other. -/
def add : Value → Value → Except TypeFault Value
  | number x, number y => .ok (number (x + y))
  | string s, string t => .ok (string (s ++ t))
  | _, _ => .error .operandsNotAlike

def negate : Value → Except TypeFault Value
  | number x => .ok (number (-x))
  | _ => .error .operandNotNumber

def applyUnary (kind : TokenKind) (operand : Value) : Except TypeFault Value :=
  match kind with
  | .symbol .bang => .ok (bool (!operand.truthy))
  | .symbol .minus => operand.negate
  | _ => .error .notUnary

def applyBinary (kind : TokenKind) (left right : Value) : Except TypeFault Value :=
  match kind with
  | .symbol s =>
    match s with
    | .plus => add left right
    | .minus => onNumbers (fun x y => number (x - y)) left right
    | .slash => onNumbers (fun x y => number (x / y)) left right
    | .star => onNumbers (fun x y => number (x * y)) left right
    | .greater => onNumbers (fun x y => bool (decide (y < x))) left right
    | .greaterEqual => onNumbers (fun x y => bool (decide (y ≤ x))) left right
    | .less => onNumbers (fun x y => bool (decide (x < y))) left right
    | .lessEqual => onNumbers (fun x y => bool (decide (x ≤ y))) left right
    | .bangEqual => .ok (bool (!left.equal right))
    | .equalEqual => .ok (bool (left.equal right))
    | _ => .error .notBinary
  | _ => .error .notBinary

end BlockScript.Value
