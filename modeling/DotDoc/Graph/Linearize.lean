import DotDoc.Graph.Sources
import DotDoc.Order.Agenda

set_option autoImplicit false

/-!
# The order of the edge lines

The edges of a block are written source by source, and a source comes before the
sources it links to wherever that is possible.
-/

namespace DotDoc

variable {ρ : Type}

namespace Source

/-- The position of the entry with a key. -/
def position? (ss : List (Source ρ)) (k : SourceKey) : Option (Fin ss.length) :=
  ss.findFinIdx? fun s => s.key == k

/-- The positions of the entries that an entry links to, once per link. -/
def targetPositions (ss : List (Source ρ)) (i : Fin ss.length) : List (Fin ss.length) :=
  ss[i].links.filterMap fun l => l.target.key?.bind (position? ss)

/-- The sources in the order in which their edges are written. -/
def linearize (ss : List (Source ρ)) : List (Source ρ) :=
  (orderedPositions (targetPositions ss)).map fun i => ss[i]

end Source

end DotDoc
