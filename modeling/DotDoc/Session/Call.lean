import DotDoc.Decimal.Reader
import DotDoc.Session.Elements
import DotDoc.Session.Item
import DotDoc.Session.Report
import DotDoc.Session.Step
import DotDoc.Text.Case

set_option autoImplicit false

/-!
# Carrying out calls

A call looks up its operation on the value that it is called on, evaluates its
arguments, which are values stored under names and data made of them, and carries
out the operation. Only the question whether a value holds another one evaluates
the other one first. A call can read which contexts are active, but it cannot
change that.
-/

namespace DotDoc

/-- The values that are stored under names. -/
abbrev Names := Table String Value

namespace Names

/-- The value stored under a name. -/
def read (names : Names) (n : String) : Act Value :=
  match names.get? n with
  | some v => return v
  | none => throw (.unbound n)

/-- The value stored under a name, if it has the operation that is called. -/
def readFor (names : Names) (hasOperation : Value → Bool) (n : String) : Act Value := do
  let v ← names.read n
  if hasOperation v then return v else throw .noSuchOperation

end Names

/-! ## Arguments -/

mutual

/-- The value that an argument describes. -/
def Expr.eval (names : Names) : Expr → Act Value
  | .none => return .none
  | .bool b => return .bool b
  | .int i => return .int i
  | .text s => return .text s
  | .list items => do
    let vs ← evalItems names items
    return .list (← Act.ident) vs
  | .name n => names.read n
  | .markup e => do
    let v ← e.eval names
    return .label ⟨← v.toText, true⟩
  | .number text =>
    match Decimal.read? text with
    | some x => return .float (← Act.ident) x
    | none => throw (.notANumber (Text.literal text))
  | .map entries => do
    let es ← evalEntries names [] entries
    return .map (← Act.ident) es

/-- The values that a list of arguments describes. -/
def evalItems (names : Names) : List Expr → Act (List Value)
  | [] => return []
  | e :: rest => do
    let v ← e.eval names
    let vs ← evalItems names rest
    return v :: vs

/-- The entries of a map, set one after the other. -/
def evalEntries (names : Names) (done : List (Value × Value)) :
    List (Expr × Expr) → Act (List (Value × Value))
  | [] => return done
  | (k, e) :: rest => do
    let key ← k.eval names
    let v ← e.eval names
    if key.isKey then evalEntries names (Value.setEntry key v done) rest
    else throw .unusableKey

end

/-- An argument that may be missing. -/
def evalOr (names : Names) (e : Option Expr) (missing : Value) : Act Value :=
  match e with
  | some e => e.eval names
  | none => return missing

/-- Arguments given by name. A name that is given again keeps its place. -/
def evalNamed (names : Names) (named : Named) : Act (List (String × Value)) := do
  let vs ← named.mapM fun e => do return (e.1, ← e.2.eval names)
  return (Table.ofList vs).entries

/-- The argument of an operation that takes further arguments by any name: if
its own name is among them, it is given thereby. -/
def splitArgument (own : String) (given : Option Value) (named : List (String × Value)) :
    Act (Option Value × List (String × Value)) :=
  match named.lookup own, given with
  | none, _ => return (given, named)
  | some v, none => return (some v, named.filter fun e => e.1 != own)
  | some _, some _ => throw .repeatedArgument

/-- Names that an operation keeps for itself cannot be given. -/
def refuseNames (kept : List String) (named : List (String × Value)) : Act Unit :=
  if named.any fun e => kept.contains e.1 then throw .repeatedArgument else return ()

/-- A new map of entries by name. -/
def mapOfNamed (named : List (String × Value)) : Act Value := do
  return .map (← Act.ident) (named.map fun e => (.text e.1, e.2))

/-! ## Results -/

/-- The result of a call. -/
inductive Answer where
  | value (v : Value)
  /-- A value that another one holds. -/
  | item (v : Value)
  | defaults (d : Defaults) (depth : Nat)
  | source (text filename format engine : String)

namespace Answer

/-- The value that is stored for a result. -/
def stored : Answer → Value
  | value v => v
  | item v => v
  | defaults .. => .none
  | source text .. => .text text

/-- What is reported of a result. A label that another value holds is reported as
tables report it. -/
def report (cs : Contexts) : Answer → Report
  | value v => v.report cs
  | item (.label l) => .attr (.label l)
  | item v => v.report cs
  | defaults d depth => .defaults d depth
  | source text filename format engine => .source text filename format engine

end Answer

/-! ## Reading fields -/

/-- A new view of a table of a graph. -/
def Act.viewGraph (g : Graph Value) (slot : GraphTable) : Act Value := do
  return .graphView (← Act.ident) g slot

/-- A new view of a table of a context. -/
def Act.viewContext (c : ContextId) (slot : ElementKind) : Act Value := do
  return .contextView (← Act.ident) c slot

/-- The members of a value, where the field is a sequence of them. -/
def Value.members? : Value → Field → Option (List Value)
  | .node n, .links => some (n.links.map .link)
  | .graph g, .nodes => some (g.nodes.map .node)
  | .graph g, .subgraphs => some (g.subgraphs.map .graph)
  | .graph g, .links => some (g.links.map .link)
  | _, _ => Option.none

/-- The value has the operation, but not without arguments. -/
def Value.lacksArguments (v : Value) : Field → Bool
  | .attr => v.ownsAttributes
  | .withAttr => v.isTable
  | .merge => v.isMergeable
  | .lookup => v.isTable
  | .named => v.isGraph
  | .record => v.hasPort
  | .compass => v.hasPort
  | .labelOf => match v with
    | .label _ => true
    | .compass _ => true
    | .link _ => true
    | _ => false
  | .markup => match v with
    | .label _ => true
    | _ => false
  | _ => false

/-- What a field of a value holds, or what its operation gives. -/
def Value.field (v : Value) (active : Stack) (f : Field) : Act Value :=
  match v, f with
  | .label l, .value => return .text l.text
  | .label l, .html => return .bool l.markup
  | .label l, .anonymous => return .bool l.anonymous
  | .table t, .isEmpty => return .bool t.isEmpty
  | .compass c, .name => return .text c.name
  | .compass c, .value => return .text c.code
  | .port p, .recordName => return .ofRecord p.record
  | .port p, .direction => return p.compass.elim .none .compass
  | .port p, .isEmpty => return .bool p.isEmpty
  | .point p, .node => return .ofAnchor p.anchor
  | .point p, .port => return .ofPlace p.place
  | .link l, .target => return .ofTarget l.target
  | .link l, .sourcePort => return .port l.sourcePort
  | .link l, .attributes => return .table l.attrs
  | .node n, .name => return .label n.name
  | .node n, .attributes => return .table n.attrs
  | .node n, .port => return .point (← Act.make (n.pointAt (← Act.newPort .none .none)))
  | .graph g, .name => return .label g.name
  | .graph g, .attributes => return .table g.attrs
  | .graph g, .graphAttrs => return .table g.graphAttrs
  | .graph g, .nodeAttrs => return .table g.nodeAttrs
  | .graph g, .linkAttrs => return .table g.linkAttrs
  | .graph g, .isDirected => return .bool g.directed
  | .graph g, .isStrict => return .bool g.strict
  | .graph g, .view slot => Act.viewGraph g slot
  | .graph g, .directed => Act.changeGraph g fun h => { h with directed := true }
  | .graph g, .undirected => Act.changeGraph g fun h => { h with directed := false }
  | .graph g, .strict => Act.changeGraph g fun h => { h with strict := true }
  | .graph g, .node => Act.addNodes g []
  | .graph g, .graph => Act.addSubgraphs g []
  | .graphView _ owner slot, .attributes => return .table (owner.table slot)
  | .contextView _ owner slot, .attributes => do
    return .table (((← get).contexts.defaults owner).get slot)
  | .context c, .graphDefaults => do return .table ((← get).contexts.defaults c).graphs
  | .context c, .nodeDefaults => do return .table ((← get).contexts.defaults c).nodes
  | .context c, .linkDefaults => do return .table ((← get).contexts.defaults c).links
  | .context c, .graphs => Act.viewContext c .graph
  | .context c, .nodes => Act.viewContext c .node
  | .context c, .links => Act.viewContext c .link
  | .context _, .current => return active.head?.elim .none .context
  | .foreign t, .name => return .text t.name
  | v, .attrs => Act.setAttrs v .none []
  | v, .link => Act.addLinks active v []
  | v, .endpoint => Act.endpoint v
  | v, f => throw (if v.lacksArguments f then .misuse else .noSuchOperation)

/-! ## Carrying out -/

/-- Write a value that has to be a graph. -/
def Value.document (v : Value) (d : Dot.Dialect) : Act String :=
  match v with
  | .graph g => Act.serialize g d
  | v => Act.refuse .notADocument v

/-- Carry out a call where the given contexts are active. -/
def Act.perform (active : Stack) (names : Names) (c : Call) : Act Answer :=
  let eval (e : Expr) : Act Value := e.eval names
  let read (n : String) : Act Value := names.read n
  let readFor (hasOperation : Value → Bool) (n : String) : Act Value :=
    names.readFor hasOperation n
  let given (e : Option Expr) (missing : Value) : Act Value := evalOr names e missing
  let value (act : Act Value) : Act Answer := do return .value (← act)
  match c with
  -- labels, tables and ports
  | .label v markup => do
    return .value (.label ⟨← (← given v (.text "")).toText, markup⟩)
  | .labelOf v => do return .value (.label (← (← eval v).toLabel))
  | .markup text => do return .value (.label ⟨← (← eval text).toText, true⟩)
  | .attributes items named => do
    let items ← items.mapM eval
    let (items, named) ← splitArgument "items" items (← evalNamed names named)
    refuseNames ["self"] named
    return .value (.table (← AttrTable.ofGiven (items.getD .none) named))
  | .withAttr on key v => do
    match ← readFor Value.isTable on with
    | .table t => do
      let key ← eval key
      let v ← eval v
      return .value (.table (← t.withAttr key v))
    | _ => throw .noSuchOperation
  | .merge on other => do
    let v ← readFor Value.isMergeable on
    let other ← eval other
    value (Act.merge v other)
  | .lookup on key => do
    let v ← read on
    let key ← eval key
    return .item (← v.item key)
  | .contains on key => do
    let key ← eval key
    let v ← read on
    return .value (.bool (← v.holds key))
  | .compassOf direction => do return .value (.compass (← (← eval direction).toCompass))
  | .port record compass => do
    let record ← given record .none
    let compass ← given compass .none
    return .value (.port (← Act.newPort record compass))
  | .record on name => do
    let v ← on.elim (return .port .nowhere) (readFor Value.hasPort)
    let name ← eval name
    value (Act.atRecord v name)
  | .compass on direction => do
    let v ← on.elim (return .port .nowhere) (readFor Value.hasPort)
    let direction ← eval direction
    value (Act.atSide v direction)
  | .nodePort on record compass => do
    let v ← readFor (fun v => v.isNode || v.isPoint) on
    let record ← given record .none
    let compass ← given compass .none
    match v with
    | .node n =>
      let port ← Act.newPort record compass
      return .value (.point (← Act.make (n.pointAt port)))
    | _ => throw .misuse
  -- elements
  | .node name named => do
    let name ← name.mapM eval
    let (name, named) ← splitArgument "name" name (← evalNamed names named)
    let attrs ← mapOfNamed named
    return .value (.node (← Act.newNode active (name.getD (.text "")) attrs))
  | .graph name named => do
    let name ← name.mapM eval
    let (name, named) ← splitArgument "name" name (← evalNamed names named)
    let attrs ← mapOfNamed named
    return .value (.graph (← Act.newGraph active (name.getD (.text "")) false false attrs))
  | .newNode name attrs => do
    let name ← given name (.text "")
    let attrs ← given attrs .none
    return .value (.node (← Act.newNode active name attrs))
  | .newGraph name directed strict attrs => do
    let name ← given name (.text "")
    let attrs ← given attrs .none
    return .value (.graph (← Act.newGraph active name directed strict attrs))
  | .linkTo target attrs => do
    let target ← eval target
    let attrs ← given attrs .none
    return .value (.link (← Act.newLink active target .none attrs))
  | .between source target attrs => do
    let source ← eval source
    let target ← eval target
    let attrs ← given attrs .none
    return .value (.link (← Act.newLink active target source attrs))
  | .newLink target sourcePort attrs => do
    let target ← eval target
    let sourcePort ← given sourcePort .none
    let attrs ← given attrs .none
    return .value (.link (← Act.newLink active target sourcePort attrs))
  | .linkOf target => do return .value (.link (← Act.toLink active (← eval target)))
  | .point anchor place => do
    let anchor ← eval anchor
    let place ← given place (.port .nowhere)
    return .value (.point (← Act.make (NodePoint.make anchor.toAnchor place.toPlace)))
  | .foreignTarget name => do return .value (.foreign ⟨← Act.ident, name⟩)
  | .abstractTarget => throw .abstractOperation
  | .abstractAttr key v => do
    let key ← eval key
    let v ← eval v
    let _ ← AttrTable.withAttr ∅ key v
    throw .abstractOperation
  | .chain stem count => do return .value (.node (← Act.chain active stem count))
  | .nest stem count => do return .value (.graph (← Act.nest active stem count))
  -- updates
  | .attr on key v => do
    let owner ← readFor Value.ownsAttributes on
    let key ← eval key
    let v ← eval v
    value (Act.setAttr owner key v)
  | .attrs on items named => do
    let owner ← readFor Value.ownsAttributes on
    let items ← items.mapM eval
    let (items, named) ← splitArgument "attrs" items (← evalNamed names named)
    refuseNames ["self", "items"] named
    value (Act.setAttrs owner (items.getD .none) named)
  | .link on targets => do
    let v ← readFor Value.isSource on
    let targets ← evalItems names targets
    value (Act.addLinks active v targets)
  | .addNodes on nodes => do
    let v ← readFor (fun v => v.isGraph || v.isPoint) on
    let nodes ← evalItems names nodes
    match v with
    | .graph g => value (Act.addNodes g nodes)
    | _ => throw .misuse
  | .addGraphs on graphs => do
    match ← read on with
    | .graph g => do
      let graphs ← evalItems names graphs
      value (Act.addSubgraphs g graphs)
    | _ => throw .noSuchOperation
  | .endpoint on => do value (Act.endpoint (← read on))
  | .directed on v => do
    match ← read on with
    | .graph g => value (Act.changeGraph g fun h => { h with directed := v })
    | _ => throw .noSuchOperation
  | .strict on v => do
    match ← read on with
    | .graph g => value (Act.changeGraph g fun h => { h with strict := v })
    | _ => throw .noSuchOperation
  | .named on name => do
    match ← read on with
    | .graph g => do
      let name ← eval name
      let label ← name.toLabel
      value (Act.changeGraph g fun h => { h with name := label })
    | _ => throw .noSuchOperation
  | .view on view => do
    match ← read on, view with
    | .graph g, .ofGraph slot => value (Act.viewGraph g slot)
    | .context c, .ofContext slot => value (Act.viewContext c slot)
    | _, _ => throw .noSuchOperation
  -- contexts
  | .newContext => do return .value (.context (← Act.newContext))
  | .current => return .value (active.head?.elim .none .context)
  | .defaults => do return .defaults (← Act.defaults active) active.depth
  -- inspection
  | .get on => value (read on)
  | .field on field index => do
    let v ← read on
    match v.members? field, index with
    | some members, some i => value (Value.pick members i)
    | some members, none => return .value (.list (← Act.ident) members)
    | none, _ => value (v.field active field)
  | .debug v => do return .value (.text (← Act.debug (← eval v)))
  | .text v => do return .value (.text (← (← eval v).toText))
  | .same a b => do
    let a ← eval a
    let b ← eval b
    return .value (.bool (a.identical b))
  | .equal a b => do
    let a ← eval a
    let b ← eval b
    return .value (.bool (a.equal b))
  | .distinct items => do
    let vs ← evalItems names items
    if vs.all Value.isKey then return .value (.int (Value.countDistinct vs))
    else throw .unusableKey
  -- output
  | .serialize graph => do return .value (.text (← (← eval graph).document .standard))
  | .serializeTwice on => do
    let v ← read on
    let first ← v.document .standard
    let second ← v.document .standard
    return .value (.list (← Act.ident) [.text first, .text second])
  | .serializeWith on dialect => do return .value (.text (← (← read on).document dialect))
  | .source on filename format engine => do
    let text ← (← read on).document .standard
    return .source (text ++ "\n") filename (Text.lower format) (Text.lower engine)

end DotDoc
