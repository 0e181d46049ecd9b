set_option autoImplicit false

/-!
# Labels

A label names a graph or a node, and can be the value of an attribute. It is
plain text or markup: plain text is quoted where it is written, markup stands
between angle brackets as it is. Two labels are the same only if both the text
and the kind agree.
-/

namespace DotDoc

/-- A name or attribute value, plain or markup. -/
structure Label where
  text : String
  markup : Bool := false
deriving DecidableEq

namespace Label

/-- The label of a graph or node without a name. -/
def blank : Label := ⟨"", false⟩

/-- A label without text is no name: a graph that bears it is anonymous. -/
def anonymous (l : Label) : Bool := l.text.isEmpty

end Label

end DotDoc
