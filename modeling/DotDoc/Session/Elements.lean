import DotDoc.Session.Convert

set_option autoImplicit false

/-!
# Building graphs from values

The operations that make and update elements of graphs, on values as they are
given. New nodes, links and graphs start out with the defaults of the innermost
active context and have their own attributes laid over them; no other operation
looks at the active contexts.

Where several things are wrong, the failure is that of the first check: the kind
of the target, then the kind of the port, then the attributes.
-/

namespace DotDoc

namespace Act

/-! ## New elements -/

/-- The end that a link to a value has: a new one at a node, and the value itself
if it is an end already. -/
def endpoint? (v : Value) : Act (Option (Target Value)) :=
  match v with
  | .node n => do return some (.point (← make (n.pointAt .nowhere)))
  | .point p => return some (.point p)
  | .graph g => return some (.graph g)
  | .foreign t => return some (.foreign t)
  | _ => return none

/-- The end that a link to a value has, as a value. -/
def endpoint (v : Value) : Act Value := do
  match ← endpoint? v with
  | some t => return .ofTarget t
  | none => throw .noSuchOperation

/-- A port that was given; none means no place. -/
def givenPort : Value → Act (Port Value)
  | .none => return .nowhere
  | .port p => return p
  | v => refuse .notAPort v

/-- A new link, with the given attributes over the defaults. -/
def newLink (active : Stack) (target sourcePort attrs : Value) : Act (Link Value) := do
  if !target.isTarget then refuse .notATarget target
  let port ← givenPort sourcePort
  match ← endpoint? target with
  | none => refuse .notATarget target
  | some t =>
    let own ← AttrTable.ofGiven attrs []
    make (Link.make t port ((← defaults active).links.overlay own))

/-- A link as it is, or a new one to the value. -/
def toLink (active : Stack) : Value → Act (Link Value)
  | .link l => return l
  | v => newLink active v .none .none

/-- A new node, with the given attributes over the defaults. -/
def newNode (active : Stack) (name attrs : Value) : Act (Node Value) := do
  let label ← name.toLabel
  let own ← AttrTable.ofGiven attrs []
  make (Node.make label ((← defaults active).nodes.overlay own))

/-- A new graph, with the given attributes over the defaults. -/
def newGraph (active : Stack) (name : Value) (directed strict : Bool) (attrs : Value) :
    Act (Graph Value) := do
  let label ← name.toLabel
  let own ← AttrTable.ofGiven attrs []
  make (Graph.make label directed strict ((← defaults active).graphs.overlay own))

/-! ## Ports -/

/-- The side that was given, if any. -/
def givenSide : Value → Act (Option Compass)
  | .none => return none
  | v => do return some (← v.toCompass)

/-- A port from a record name and a side. -/
def newPort (record compass : Value) : Act (Port Value) := do
  let side ← givenSide compass
  make (Port.make record.toRecord side)

/-- A value with its port changed: a port gives a port, and a node or an endpoint
gives a new endpoint. What an endpoint has for its port is changed likewise, even
if it is no port. -/
def changePort (f : Port Value → Act (Port Value)) : Value → Act Value
  | .port p => do return .port (← f p)
  | .node n => do
    let port ← f .nowhere
    return .point (← make (n.pointAt port))
  | .point ⟨_, anchor, .port p⟩ => do
    let port ← f p
    return .point (← make (NodePoint.make anchor (.port port)))
  | .point ⟨_, anchor, .foreign v⟩ => do
    let place ← changePort f v
    return .point (← make (NodePoint.make anchor place.toPlace))
  | _ => throw .noSuchOperation

/-- A value at a field of the record. -/
def atRecord (v name : Value) : Act Value :=
  changePort (fun p => make (Port.make name.toRecord p.compass)) v

/-- A value at a side of the node. -/
def atSide (v direction : Value) : Act Value :=
  changePort (fun p => do
    let side ← givenSide direction
    make (Port.make p.record side)) v

/-! ## Attributes -/

/-- An owner of attributes with its table changed. A new owner is given back,
and a view of a graph's table gives the new graph. A context changes in place
and is given back itself. -/
def changeAttributes (v : Value) (f : AttrTable → Act AttrTable) : Act Value :=
  match v with
  | .node n => do
    let attrs ← f n.attrs
    return .node (← make (Node.renew { n with attrs }))
  | .link l => do
    let attrs ← f l.attrs
    return .link (← make (Link.renew { l with attrs }))
  | .graph g => do
    let attrs ← f g.attrs
    return .graph (← make (Graph.renew { g with attrs }))
  | .graphView _ owner slot => do
    let attrs ← f (owner.table slot)
    return .graph (← make (owner.withTable attrs slot).renew)
  | .contextView _ owner slot => do
    let attrs ← f (((← get).contexts.defaults owner).get slot)
    setDefaults owner slot attrs
    return .context owner
  | _ => throw .noSuchOperation

/-- Give one attribute a value. -/
def setAttr (v key value : Value) : Act Value :=
  changeAttributes v fun t => t.withAttr key value

/-- Give several attributes their values. -/
def setAttrs (v items : Value) (named : List (String × Value)) : Act Value :=
  changeAttributes v fun t => do return t.overlay (← AttrTable.ofGiven items named)

/-! ## Graphs -/

/-- A graph under a new identity, with a change. -/
def changeGraph (g : Graph Value) (f : Graph Value → Graph Value) : Act Value := do
  return .graph (← make (f g).renew)

/-- A node or graph with further links. Links that leave a graph cannot have a
source port. -/
def addLinks (active : Stack) (v : Value) (targets : List Value) : Act Value :=
  match v with
  | .node n => do
    let links ← targets.mapM (toLink active)
    return .node (← make (n.addLinks links))
  | .graph g => do
    let links ← targets.mapM (toLink active)
    match links.find? fun l => !l.sourcePort.isEmpty with
    | some l => throw (.portOnGraph (← debug (.link l)) g.debug)
    | none => return .graph (← make (g.addLinks links))
  | _ => throw .noSuchOperation

/-- A graph with further nodes. -/
def addNodes (g : Graph Value) (nodes : List Value) : Act Value := do
  let ns ← nodes.mapM fun
    | .node n => return n
    | other => refuse .notANode other
  return .graph (← make (g.addNodes ns))

/-- A graph with further subgraphs. -/
def addSubgraphs (g : Graph Value) (graphs : List Value) : Act Value := do
  let ss ← graphs.mapM fun
    | .graph s => return s
    | other => refuse .notASubgraph other
  return .graph (← make (g.addSubgraphs ss))

/-- Merge a value into another one of its kind. -/
def merge (v other : Value) : Act Value :=
  match v, other with
  | .table t, u => do return .table (← t.mergeGiven u)
  | .node a, .node b => do return .node (← make (a.merge b))
  | .graph a, .graph b => do return .graph (← make (a.merge b))
  | _, _ => throw .noSuchOperation

/-! ## Chains and nests -/

/-- Nodes that are linked in a row: the one numbered `k` down to the first, in
front of the given one. -/
def chainFrom (active : Stack) (stem : String) : Nat → Node Value → Act (Node Value)
  | 0, last => return last
  | k + 1, last => do
    let node ← newNode active (.text s!"{stem}{k}") .none
    let link ← toLink active (.node last)
    chainFrom active stem k (← make (node.addLinks [link]))

/-- The first of `count` nodes each of which links to the next. -/
def chain (active : Stack) (stem : String) (count : Int) : Act (Node Value) := do
  let last ← newNode active (.text s!"{stem}{count - 1}") .none
  chainFrom active stem (count - 1).toNat last

/-- Graphs around a graph: the one numbered `k` down to the first. -/
def nestFrom (active : Stack) (stem : String) : Nat → Graph Value → Act (Graph Value)
  | 0, inner => return inner
  | k + 1, inner => do
    let outer ← newGraph active (.text s!"{stem}{k}") false false .none
    nestFrom active stem k (← make (outer.addSubgraphs [inner]))

/-- The outermost of `count` graphs each of which holds the next, with a node in
the innermost. -/
def nest (active : Stack) (stem : String) (count : Int) : Act (Graph Value) := do
  let graph ← newGraph active (.text s!"{stem}{count - 1}") false false .none
  let leaf ← newNode active (.text s!"leaf{count - 1}") .none
  nestFrom active stem (count - 1).toNat (← make (graph.addNodes [leaf]))

end Act

end DotDoc
