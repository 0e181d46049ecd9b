import DotDoc.Session.World
import DotDoc.Session.Equality

set_option autoImplicit false

/-!
# From values to texts, labels and tables

Names, attribute names and attribute values may be given as any value and become
texts or labels. The text of a graph is its document, so taking the text of a
value may write a graph, and fail where the graph cannot be written.
-/

namespace DotDoc

/-- The text of a value: texts, labels and sides stand for themselves, a graph
gives its document, and anything else gives what it is shown as. -/
def Value.toText : Value → Act String
  | .text s => return s
  | .label l => return l.text
  | .compass c => return c.shown
  | .graph g => Act.serialize g .standard
  | v => Act.debug v

/-- The label that a value names; labels are kept as they are. -/
def Value.toLabel : Value → Act Label
  | .label l => return l
  | v => return ⟨← v.toText, false⟩

/-- The value of an attribute; labels are kept as they are. -/
def Value.toAttr : Value → Act AttrValue
  | .label l => return .label l
  | .bool b => return .ofBool b
  | v => return .text (← v.toText)

/-- The side that a value names. -/
def Value.toCompass : Value → Act Compass
  | .compass c => return c
  | .text s =>
    match Compass.ofCode? s with
    | .some c => return c
    | .none => throw (.notADirection s)
  | v => do throw (.notADirection (← v.toText))

namespace AttrTable

/-- Attribute entries from any keys and values, in order. The value of an entry
is converted before its key. -/
def convertEntries (es : List (Value × Value)) : Act (List (String × AttrValue)) :=
  es.mapM fun e => do
    let a ← e.2.toAttr
    return (← e.1.toText, a)

/-- The entries of a table as values. -/
def toValues (t : AttrTable) : List (Value × Value) :=
  t.entries.map fun e => (.text e.1, .ofAttr e.2)

/-- The entries that are given for attributes: those of a map or table, none if
nothing is given. -/
def givenEntries (items : Value) : Act (List (String × AttrValue)) :=
  if !items.isGiven then return []
  else match items with
    | .map _ es => convertEntries es
    | .table t => return t.entries
    | _ => throw .notAttributes

/-- A table from given attributes and named ones after them. -/
def ofGiven (items : Value) (named : List (String × Value)) : Act AttrTable := do
  let first ← givenEntries items
  let second ← convertEntries (named.map fun e => (.text e.1, e.2))
  return .ofList (first ++ second)

/-- Set entries in a table. They are set as they are, and the outcome is
converted. -/
def setEntries (t : AttrTable) (es : List (Value × Value)) : Act AttrTable := do
  return .ofList (← convertEntries (Value.setEntries t.toValues es))

/-- Lay a map or table over a table. -/
def mergeGiven (t : AttrTable) (upper : Value) : Act AttrTable :=
  if !upper.isGiven then return t
  else match upper with
    | .map _ es => t.setEntries es
    | .table u => return t.overlay u
    | _ => throw .notMergeable

/-- Give one attribute a value. -/
def withAttr (t : AttrTable) (key value : Value) : Act AttrTable :=
  if key.isKey then t.setEntries [(key, value)] else throw .unusableKey

end AttrTable

end DotDoc
