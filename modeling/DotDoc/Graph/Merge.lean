import DotDoc.Graph.Basic

set_option autoImplicit false

/-!
# Adding and merging

A graph has one node per name and one subgraph per name, anonymous subgraphs
apart. Adding a node whose name is known merges it into the node that is there;
subgraphs likewise. Merging lays the tables of the second value over those of
the first and appends the links that the first does not hold yet, where links
are told apart by identity.

Merging a value with itself gives that very value; any other merge gives a new
one.
-/

namespace DotDoc

variable {ρ : Type}

/-! ## Nodes -/

/-- Those of the given links that are not among the known ones. -/
def Link.beyond (known added : List (Link ρ)) : List (Link ρ) :=
  added.filter fun l => !(known.any fun k => k.ident == l.ident)

/-- The first node with the attributes and further links of the second. -/
def Node.absorb (a b : Node ρ) : Node ρ :=
  { a with attrs := a.attrs.overlay b.attrs, links := a.links ++ Link.beyond a.links b.links }

/-- Merge a node into another one. -/
def Node.merge (a b : Node ρ) : Supply (Node ρ) :=
  if a.ident = b.ident then pure a else (a.absorb b).renew

namespace Graph

/-! ## Members by name -/

/-- Position and value of the node of that name. -/
def nodeAt? (g : Graph ρ) (name : Label) : Option (Nat × Node ρ) := do
  let i ← g.nodeIndex.get? name
  let n ← g.nodes[i]?
  return (i, n)

/-- Position and value of the subgraph of that name. Anonymous subgraphs are
never found. -/
def subgraphAt? (g : Graph ρ) (name : Label) : Option (Nat × Graph ρ) :=
  if name.anonymous then none else do
    let i ← g.subgraphIndex.get? name
    let s ← g.subgraphs[i]?
    return (i, s)

/-- The graph with one more node at the end. -/
def appendNode (g : Graph ρ) (n : Node ρ) : Graph ρ :=
  { g with nodes := g.nodes ++ [n], nodeIndex := g.nodeIndex.set n.name g.nodes.length }

/-- The graph with one more subgraph at the end. -/
def appendSubgraph (g s : Graph ρ) : Graph ρ :=
  { g with
    subgraphs := g.subgraphs ++ [s]
    subgraphIndex := if s.name.anonymous then g.subgraphIndex
      else g.subgraphIndex.set s.name g.subgraphs.length }

/-! ## Nodes of a graph -/

/-- Merge a node into the one of its name, or append it. -/
def placeNode (g : Graph ρ) (n : Node ρ) : Supply (Graph ρ) :=
  match g.nodeAt? n.name with
  | none => pure (g.appendNode n)
  | some (i, known) => do
    let merged ← known.merge n
    return { g with nodes := g.nodes.set i merged }

/-- Place nodes one after the other. -/
def placeNodes (g : Graph ρ) (ns : List (Node ρ)) : Supply (Graph ρ) := ns.foldlM placeNode g

/-- The graph with the given nodes added. -/
def addNodes (g : Graph ρ) (ns : List (Node ρ)) : Supply (Graph ρ) := do
  (← g.placeNodes ns).renew

/-! ## Merging graphs -/

/-- The first graph with the tables of the second laid over its own, and with
the links of the second that it does not hold yet. -/
def overlaid (a b : Graph ρ) : Graph ρ :=
  { a with
    attrs := a.attrs.overlay b.attrs
    graphAttrs := a.graphAttrs.overlay b.graphAttrs
    nodeAttrs := a.nodeAttrs.overlay b.nodeAttrs
    linkAttrs := a.linkAttrs.overlay b.linkAttrs
    links := a.links ++ Link.beyond a.links b.links }

mutual

/-- Merge a graph into another one: tables and links first, then the nodes and
the subgraphs of the second are added to the first. -/
def merge (a : Graph ρ) : Graph ρ → Supply (Graph ρ)
  | b@(.mk _ _ _ _ _ _ _ _ nodes _ subgraphs _ _) =>
    if a.ident = b.ident then pure a
    else do
      let g ← (a.overlaid b).placeNodes nodes
      let g ← g.placeSubgraphs subgraphs
      g.renew

/-- Merge subgraphs into those of their names, or append them, one after the
other. -/
def placeSubgraphs (g : Graph ρ) : List (Graph ρ) → Supply (Graph ρ)
  | [] => pure g
  | s :: rest =>
    match g.subgraphAt? s.name with
    | none => placeSubgraphs (g.appendSubgraph s) rest
    | some (i, known) => do
      let merged ← merge known s
      placeSubgraphs { g with subgraphs := g.subgraphs.set i merged } rest

end

/-- The graph with the given subgraphs added. -/
def addSubgraphs (g : Graph ρ) (ss : List (Graph ρ)) : Supply (Graph ρ) := do
  (← g.placeSubgraphs ss).renew

/-- The graph with the given links leaving it. -/
def addLinks (g : Graph ρ) (ls : List (Link ρ)) : Supply (Graph ρ) :=
  Graph.renew { g with links := g.links ++ ls }

end Graph

/-- The node with the given links leaving it. -/
def Node.addLinks (n : Node ρ) (ls : List (Link ρ)) : Supply (Node ρ) :=
  Node.renew { n with links := n.links ++ ls }

end DotDoc
