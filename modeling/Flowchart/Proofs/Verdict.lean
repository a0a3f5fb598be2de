import Flowchart.Document.Check
import Flowchart.Proofs.Entry
import Flowchart.Proofs.Settings
/-! What is found wrong with a document that was just compiled. It always has a trigger, and a name
unless that is given as no octets. Otherwise only the graph can be at fault: by an id, a type or an end
of an edge that is empty. -/
namespace Flowchart

namespace Metadata
variable {raw : Fields} {s : Source} {v : Value}

end Metadata

section
variable {nodes : List Node} {edges : List Edge} {settings : Metadata.Source} {d : Document}
  {c : Compiled} {n : Node} {s : Scalar} {v : Value}

end

end Flowchart
