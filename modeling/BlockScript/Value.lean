import BlockScript.Number

/-!
The values of the language, what counts as true, the language's equality, and how a value is
printed.
-/
namespace BlockScript

/-- A value of the language. -/
inductive Value where
  | nil
  | bool (b : Bool)
  | number (x : Float)
  | string (s : String)
deriving DecidableEq

namespace Value

/-- Only `nil` and `false` are untrue. -/
def truthy : Value → Bool
  | nil => false
  | bool b => b
  | number _ | string _ => true

/-- Equality as the language has it: values of different kinds differ, and numbers compare as
binary64 numbers do, so that NaN differs from itself and the two zeros are equal. -/
def equal : Value → Value → Bool
  | nil, nil => true
  | bool a, bool b => a == b
  | number x, number y => x == y
  | string s, string t => s == t
  | _, _ => false

/-- The printed form of a value; a string stands for itself. -/
def display : Value → String
  | nil => "nil"
  | bool true => "true"
  | bool false => "false"
  | number x => Number.text x
  | string s => s

end Value
end BlockScript
