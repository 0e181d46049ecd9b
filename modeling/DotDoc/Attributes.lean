import DotDoc.Table
import DotDoc.Label

set_option autoImplicit false

/-!
# Attribute tables

An attribute table maps attribute names to values, which are texts or labels.
A text is written like the plain label of that text; the two are kept apart
because a label that was given as a value is handed back as a label.
-/

namespace DotDoc

/-- The value of an attribute. -/
inductive AttrValue where
  | text (s : String)
  | label (l : Label)
deriving DecidableEq

namespace AttrValue

/-- The label that is written for a value. -/
def toLabel : AttrValue → Label
  | text s => ⟨s, false⟩
  | label l => l

/-- The text of a truth value among attributes. -/
def ofBool (b : Bool) : AttrValue := text (if b then "true" else "false")

end AttrValue

/-- Attribute values by name, in the order in which the names were first set. -/
abbrev AttrTable := Table String AttrValue

/-- The entries of a table as they are written. -/
def AttrTable.written (t : AttrTable) : List (String × Label) :=
  t.entries.map fun e => (e.1, e.2.toLabel)

end DotDoc
