import DotDoc.Session.Debug
import DotDoc.Session.Failure

set_option autoImplicit false

/-!
# Reports

What is reported of the result of a step: data as they are, and of elements what
they hold, with other elements as they are shown at that moment.
-/

namespace DotDoc

/-- What is reported of a link. -/
structure LinkReport where
  target : String
  port : String
  attrs : AttrTable

/-- What is reported of a result. -/
inductive Report where
  | nothing
  | bool (b : Bool)
  | int (i : Int)
  | text (s : String)
  | items (rs : List Report)
  | shown (s : String)
  | attr (a : AttrValue)
  | label (l : Label)
  | table (t : AttrTable)
  | compass (c : Compass)
  | port (record : Report) (compass : Option Compass) (empty : Bool)
  | node (name : Label) (attrs : AttrTable) (links : List LinkReport)
  | point (node : String) (port : Report)
  | link (l : LinkReport)
  | graph (name : Label) (directed strict : Bool)
      (attrs graphAttrs nodeAttrs linkAttrs : AttrTable) (nodes subgraphs : List String)
      (links : List LinkReport)
  | view (shown : String) (t : AttrTable)
  | context (d : Defaults)
  | foreign (name : String)
  | defaults (d : Defaults) (depth : Nat)
  | source (text filename format engine : String)

/-- What is reported of a step: its result or failure, or what its own steps
report and how it was left. -/
inductive Entry where
  | result (r : Report)
  | failed (f : Failure)
  | within (steps : List Entry) (left : Option Failure) (depth : Nat)
  | aside (steps : List Entry) (depth : Nat)
  | logged (steps : List Entry) (events : List Event)

def Link.report (cs : Contexts) (l : Link Value) : LinkReport :=
  ⟨l.target.debug cs, l.sourcePort.debug cs, l.attrs⟩

/-- A record name as data, or as it is shown. -/
def RecordName.report (cs : Contexts) : RecordName Value → Report
  | absent => .nothing
  | text s => .text s
  | label l => .shown l.debug
  | foreign (.bool b) => .bool b
  | foreign (.int i) => .int i
  | foreign v => .shown (v.debug cs)

def Port.report (cs : Contexts) (p : Port Value) : Report :=
  .port (p.record.report cs) p.compass p.isEmpty

mutual

/-- What is reported of a value, given what the contexts hold. -/
def Value.report (cs : Contexts) : Value → Report
  | .none => .nothing
  | .bool b => .bool b
  | .int i => .int i
  | .text s => .text s
  | .list _ items => .items (reportItems cs items)
  | .label l => .label l
  | .table t => .table t
  | .compass c => .compass c
  | .port p => p.report cs
  | .node n => .node n.name n.attrs (n.links.map (Link.report cs))
  | .point p => NodePoint.report cs p
  | .link l => .link (l.report cs)
  | .graph g =>
    .graph g.name g.directed g.strict g.attrs g.graphAttrs g.nodeAttrs g.linkAttrs
      (g.nodes.map Node.debug) (g.subgraphs.map Graph.debug) (g.links.map (Link.report cs))
  | .graphView ident owner slot =>
    .view ((Value.graphView ident owner slot).debug cs) (owner.table slot)
  | .contextView ident owner slot =>
    .view ((Value.contextView ident owner slot).debug cs) ((cs.defaults owner).get slot)
  | .context c => .context (cs.defaults c)
  | .foreign t => .foreign t.name
  | v => .shown (v.debug cs)

/-- What is reported of an endpoint: its anchor as it is shown, and its port. -/
def NodePoint.report (cs : Contexts) : NodePoint Value → Report
  | ⟨_, anchor, .port p⟩ => .point (anchor.debug cs) (p.report cs)
  | ⟨_, anchor, .foreign v⟩ => .point (anchor.debug cs) (v.report cs)

/-- What is reported of the items of a list. -/
def reportItems (cs : Contexts) : List Value → List Report
  | [] => []
  | v :: rest => v.report cs :: reportItems cs rest

end

end DotDoc
