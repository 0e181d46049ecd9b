import DotDoc.Session.Value
import DotDoc.Text.Literal
import DotDoc.Decimal.Layout

set_option autoImplicit false

/-!
# Values as they are shown

Error messages and reports show values in a form that tells their kind. Plain
data are shown as literals, elements of graphs between angle brackets with their
names. What a context shows are the defaults it holds at the moment.
-/

namespace DotDoc

open Text (literal)

/-- A label by its kind and text. -/
def Label.debug (l : Label) : String :=
  if l.markup then s!"<Label <{l.text}>>" else s!"<Label {literal l.text}>"

/-- An attribute value: a literal or a label. -/
def AttrValue.debug : AttrValue → String
  | text s => literal s
  | label l => l.debug

/-- Entries between braces. -/
def debugEntries (entries : List (String × String)) : String :=
  "\x7b" ++ ", ".intercalate (entries.map fun e => s!"{e.1}: {e.2}") ++ "\x7d"

/-- The entries of a table between braces. -/
def AttrTable.debug (t : AttrTable) : String :=
  debugEntries (t.entries.map fun e => (literal e.1, e.2.debug))

/-- A side by its name. -/
def Compass.shown (c : Compass) : String := s!"Compass.{c.name}"

/-- A port from its record name as it is shown. -/
def debugPort (record : String) (c : Option Compass) : String :=
  let side := c.elim "None" Compass.shown
  s!"<Port record={record} compass={side}>"

section Elements

variable {ρ : Type}

def Node.debug (n : Node ρ) : String := s!"<Node {n.name.debug}>"

def Graph.debug (g : Graph ρ) : String := s!"<Graph {g.name.debug}>"

def ForeignTarget.debug (t : ForeignTarget) : String := s!"<CustomTarget {t.name}>"

def Source.debug : Source ρ → String
  | node n => n.debug
  | graph g => g.debug

end Elements

/-- The tables of a graph by name. -/
def GraphTable.name : GraphTable → String
  | general => "attributes"
  | graphs => "graph_attrs"
  | nodes => "node_attrs"
  | links => "link_attrs"

/-- The tables of a context by name. -/
def ElementKind.tableName : ElementKind → String
  | graph => "graphs"
  | node => "nodes"
  | link => "links"

/-- A context by the defaults it holds. -/
def Defaults.debug (d : Defaults) : String :=
  s!"<CreationContext graphs={d.graphs.debug} nodes={d.nodes.debug} links={d.links.debug}>"

/-- The defaults that each context holds. -/
abbrev Contexts := Table ContextId Defaults

/-- The defaults of a context. -/
def Contexts.defaults (cs : Contexts) (c : ContextId) : Defaults := (cs.get? c).getD .none

mutual

/-- A value as it is shown, given what the contexts hold. -/
def Value.debug (cs : Contexts) : Value → String
  | .none => "None"
  | .bool b => if b then "True" else "False"
  | .int i => toString i
  | .float _ x => Decimal.Layout.standard.float x
  | .text s => literal s
  | .list _ items => "[" ++ ", ".intercalate (debugItems cs items) ++ "]"
  | .map _ entries => debugEntries (debugPairs cs entries)
  | .label l => l.debug
  | .table t => s!"Attributes({t.debug})"
  | .compass c => s!"<{c.shown}: {literal c.code}>"
  | .port p => Port.debug cs p
  | .node n => n.debug
  | .point p => NodePoint.debug cs p
  | .link l => Link.debug cs l
  | .graph g => g.debug
  | .graphView _ owner slot => s!"<AttributeView {slot.name} of {owner.debug}>"
  | .contextView _ owner slot => s!"<AttributeView {slot.tableName} of {(cs.defaults owner).debug}>"
  | .context c => (cs.defaults c).debug
  | .foreign t => t.debug

/-- The items of a list. -/
def debugItems (cs : Contexts) : List Value → List String
  | [] => []
  | v :: rest => v.debug cs :: debugItems cs rest

/-- The entries of a map. -/
def debugPairs (cs : Contexts) : List (Value × Value) → List (String × String)
  | [] => []
  | (k, v) :: rest => (k.debug cs, v.debug cs) :: debugPairs cs rest

/-- A port by its record name and side. -/
def Port.debug (cs : Contexts) : Port Value → String
  | ⟨_, .absent, c⟩ => debugPort "None" c
  | ⟨_, .text s, c⟩ => debugPort (literal s) c
  | ⟨_, .label l, c⟩ => debugPort l.debug c
  | ⟨_, .foreign v, c⟩ => debugPort (v.debug cs) c

/-- What is given for a port. -/
def Place.debug (cs : Contexts) : Place Value → String
  | .port p => Port.debug cs p
  | .foreign v => v.debug cs

/-- What an endpoint is anchored at. -/
def Anchor.debug (cs : Contexts) : Anchor Value → String
  | .source s => s.debug
  | .foreign v => v.debug cs

/-- An endpoint by its anchor and port. -/
def NodePoint.debug (cs : Contexts) : NodePoint Value → String
  | ⟨_, anchor, place⟩ => s!"<NodePoint {Anchor.debug cs anchor} {Place.debug cs place}>"

/-- What a link leads to. -/
def Target.debug (cs : Contexts) : Target Value → String
  | .point p => NodePoint.debug cs p
  | .graph g => g.debug
  | .foreign t => t.debug

/-- A link by its target. -/
def Link.debug (cs : Contexts) : Link Value → String
  | ⟨_, target, _, _⟩ => s!"<Link to {Target.debug cs target}>"

end

end DotDoc
