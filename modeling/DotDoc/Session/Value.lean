import DotDoc.Graph.Basic
import DotDoc.Context.Basic

set_option autoImplicit false

/-!
# Values of a session

The steps of a session pass values around: plain data, the elements of graphs,
attribute tables, views of tables, and contexts. Names, attribute values and
record names may be any of them. A record name that is neither absent nor a text
nor a label is foreign to the model and stays the value that it is, and so does
what is given for a port or an anchor and is none.

Floating-point numbers, lists and maps have an identity number like the elements
of graphs: each description of one makes a new value, and a name gives back the
very value that was stored under it.
-/

namespace DotDoc

/-- Anything that a step can take or give. -/
inductive Value where
  | none
  | bool (b : Bool)
  | int (i : Int)
  | float (ident : Nat) (x : Float)
  | text (s : String)
  | list (ident : Nat) (items : List Value)
  | map (ident : Nat) (entries : List (Value × Value))
  | label (l : Label)
  | table (t : AttrTable)
  | compass (c : Compass)
  | port (p : Port Value)
  | node (n : Node Value)
  | point (p : NodePoint Value)
  | link (l : Link Value)
  | graph (g : Graph Value)
  | graphView (ident : Nat) (owner : Graph Value) (slot : GraphTable)
  | contextView (ident : Nat) (owner : ContextId) (slot : ElementKind)
  | context (c : ContextId)
  | foreign (t : ForeignTarget)

namespace Value

instance : Inhabited Value := ⟨none⟩

/-- An attribute value by itself. -/
def ofAttr : AttrValue → Value
  | .text s => text s
  | .label l => label l

/-- The record name that a value stands for. -/
def toRecord : Value → RecordName Value
  | none => .absent
  | text s => .text s
  | label l => .label l
  | v => .foreign v

/-- A record name as the value that was given. -/
def ofRecord : RecordName Value → Value
  | .absent => none
  | .text s => text s
  | .label l => label l
  | .foreign v => v

/-- What is given for a port. -/
def toPlace : Value → Place Value
  | port p => .port p
  | v => .foreign v

/-- What was given for a port. -/
def ofPlace : Place Value → Value
  | .port p => port p
  | .foreign v => v

/-- What an endpoint is to be anchored at. -/
def toAnchor : Value → Anchor Value
  | node n => .source (.node n)
  | graph g => .source (.graph g)
  | v => .foreign v

/-- What an endpoint is anchored at as the value that was given. -/
def ofAnchor : Anchor Value → Value
  | .source (.node n) => node n
  | .source (.graph g) => graph g
  | .foreign v => v

/-- The target of a link as a value. -/
def ofTarget : Target Value → Value
  | .point p => point p
  | .graph g => graph g
  | .foreign t => foreign t

/-- Nothing, false, zero and whatever has no entries count as not given. -/
def isGiven : Value → Bool
  | none => false
  | bool b => b
  | int i => i != 0
  | float _ x => x != 0
  | text s => !s.isEmpty
  | list _ items => !items.isEmpty
  | map _ entries => !entries.isEmpty
  | table t => !t.isEmpty
  | _ => true

/-- The value can be a key: lists, maps and tables cannot, nor can a port that
bears one. -/
def isKey : Value → Bool
  | list .. => false
  | map .. => false
  | table _ => false
  | port ⟨_, .foreign v, _⟩ => v.isKey
  | _ => true

/-- A value that was given as a record name is handed back as it was. -/
theorem ofRecord_toRecord (v : Value) : ofRecord v.toRecord = v := by
  cases v <;> rfl

/-- A value that was given for a port is handed back as it was. -/
theorem ofPlace_toPlace (v : Value) : ofPlace v.toPlace = v := by
  cases v <;> rfl

/-- A value that was given for an anchor is handed back as it was. -/
theorem ofAnchor_toAnchor (v : Value) : ofAnchor v.toAnchor = v := by
  cases v <;> rfl

/-! ## What values can do -/

/-- The value has attributes of its own that can be set. -/
def ownsAttributes : Value → Bool
  | node _ => true
  | link _ => true
  | graph _ => true
  | graphView .. => true
  | contextView .. => true
  | _ => false

/-- The value can absorb another one of its kind. -/
def isMergeable : Value → Bool
  | table _ => true
  | node _ => true
  | graph _ => true
  | _ => false

/-- The value can hold links. -/
def isSource : Value → Bool
  | node _ => true
  | graph _ => true
  | _ => false

/-- The value can be taken at another port. -/
def hasPort : Value → Bool
  | port _ => true
  | node _ => true
  | point _ => true
  | _ => false

/-- The value can be the target of a link. -/
def isTarget : Value → Bool
  | node _ => true
  | point _ => true
  | graph _ => true
  | foreign _ => true
  | _ => false

def isTable : Value → Bool
  | table _ => true
  | _ => false

def isNode : Value → Bool
  | node _ => true
  | _ => false

def isPoint : Value → Bool
  | point _ => true
  | _ => false

def isGraph : Value → Bool
  | graph _ => true
  | _ => false

def isContext : Value → Bool
  | context _ => true
  | _ => false

end Value

end DotDoc
