import BlockScript.Value

/-!
Where printed text goes. A failed write is not noticed by the program that prints.
-/
namespace BlockScript

/-- A device that may refuse a write: which of all writes it accepts, how many were tried, and
the text it accepted so far. -/
structure Device where
  accepts : Nat → Bool
  writes : Nat
  sent : String

namespace Device

/-- A device that accepts every write. -/
def working : Device := ⟨fun _ => true, 0, ""⟩

/-- A device that accepts none. -/
def full : Device := ⟨fun _ => false, 0, ""⟩

/-- Whether the next write will be accepted. -/
def ready (d : Device) : Bool := d.accepts d.writes

def write (d : Device) (text : String) : Device :=
  { d with writes := d.writes + 1, sent := if d.ready then d.sent ++ text else d.sent }

end Device

/-- A buffer that captures the text, or a device. -/
inductive Output where
  | buffer (text : String)
  | device (d : Device)

namespace Output

def printLine (line : String) : Output → Output
  | buffer text => buffer (text ++ line ++ "\n")
  | device d => device (d.write (line ++ "\n"))

/-- The captured text; a device captures none. -/
def captured : Output → String
  | buffer text => text
  | device _ => ""

/-- Forgets the captured text. -/
def clear : Output → Output
  | buffer _ => buffer ""
  | device d => device d

end Output
end BlockScript
