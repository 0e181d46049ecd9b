import DotDoc.Attributes
import DotDoc.Port

set_option autoImplicit false

/-!
# Nodes, links and graphs

A node bears a name, attributes and the links that leave it. A link leads to a
node at some port, to a graph, or to a foreign target that the model does not
know how to write. A graph holds its nodes and subgraphs in the order they were
added, four attribute tables, and the links that leave it when it stands inside
another graph. Nodes and graphs are the sources of links.

What an endpoint is anchored at is meant to be a node. A graph can be given too,
and is then referred to by its name; anything else is kept as it was given, and
cannot be written.

All of these are values: an update gives a new value. Nodes, links, endpoints,
ports and graphs also have an identity number, handed out when they are made, because
some rules ask whether two values are the very same one and not only whether
they look alike. A value is made after all its parts, so no value contains
itself.

Main statements: the nodes and subgraphs of a graph are smaller than itself
(`Graph.sizeOf_node`, `Graph.sizeOf_subgraph`).
-/

namespace DotDoc

/-- A target that comes from outside the model. Links may lead to it, but it
cannot be written. -/
structure ForeignTarget where
  ident : Nat
  name : String

mutual

/-- A vertex with the links that leave it. -/
structure Node (ρ : Type) where
  ident : Nat
  name : Label
  attrs : AttrTable
  links : List (Link ρ)

/-- An edge as its source holds it. -/
structure Link (ρ : Type) where
  ident : Nat
  target : Target ρ
  sourcePort : Port ρ
  attrs : AttrTable

/-- What a link leads to. -/
inductive Target (ρ : Type) where
  | point (p : NodePoint ρ)
  | graph (g : Graph ρ)
  | foreign (t : ForeignTarget)

/-- A node as the end of an edge, at some port. -/
structure NodePoint (ρ : Type) where
  ident : Nat
  anchor : Anchor ρ
  place : Place ρ

/-- What an endpoint is anchored at. -/
inductive Anchor (ρ : Type) where
  | source (s : Source ρ)
  | foreign (v : ρ)

/-- What can hold links: a node or a graph. -/
inductive Source (ρ : Type) where
  | node (n : Node ρ)
  | graph (g : Graph ρ)

/-- A graph or subgraph. `nodeIndex` and `subgraphIndex` give the positions of
the names among the nodes and among the named subgraphs. -/
structure Graph (ρ : Type) where
  ident : Nat
  name : Label
  directed : Bool
  strict : Bool
  attrs : AttrTable
  graphAttrs : AttrTable
  nodeAttrs : AttrTable
  linkAttrs : AttrTable
  nodes : List (Node ρ)
  nodeIndex : Table Label Nat
  subgraphs : List (Graph ρ)
  subgraphIndex : Table Label Nat
  links : List (Link ρ)

end

variable {ρ : Type}

/-! ## Parts are smaller -/

theorem Graph.sizeOf_node {g : Graph ρ} {n : Node ρ} (h : n ∈ g.nodes) : sizeOf n < sizeOf g := by
  cases g
  have := List.sizeOf_lt_of_mem h
  simp at this ⊢
  omega

theorem Graph.sizeOf_subgraph {g s : Graph ρ} (h : s ∈ g.subgraphs) : sizeOf s < sizeOf g := by
  cases g
  have := List.sizeOf_lt_of_mem h
  simp at this ⊢
  omega

/-! ## Making values -/

/-- Identity numbers are handed out in increasing order. -/
abbrev Supply := StateM Nat

namespace Supply

/-- The next identity number. -/
def next : Supply Nat := modifyGet fun n => (n, n + 1)

end Supply

/-- A new node without links. -/
def Node.make (name : Label) (attrs : AttrTable) : Supply (Node ρ) := do
  return { ident := ← Supply.next, name, attrs, links := [] }

/-- A new port. -/
def Port.make (record : RecordName ρ) (compass : Option Compass) : Supply (Port ρ) := do
  return { ident := ← Supply.next, record, compass }

/-- A new endpoint. -/
def NodePoint.make (anchor : Anchor ρ) (place : Place ρ) : Supply (NodePoint ρ) := do
  return { ident := ← Supply.next, anchor, place }

/-- A new endpoint at a node. -/
def Node.pointAt (n : Node ρ) (p : Port ρ) : Supply (NodePoint ρ) :=
  NodePoint.make (.source (.node n)) (.port p)

/-- A new link. -/
def Link.make (target : Target ρ) (sourcePort : Port ρ) (attrs : AttrTable) : Supply (Link ρ) := do
  return { ident := ← Supply.next, target, sourcePort, attrs }

/-- A new graph without members and links. -/
def Graph.make (name : Label) (directed strict : Bool) (attrs : AttrTable) :
    Supply (Graph ρ) := do
  return { ident := ← Supply.next, name, directed, strict, attrs, graphAttrs := ∅, nodeAttrs := ∅,
           linkAttrs := ∅, nodes := [], nodeIndex := ∅, subgraphs := [], subgraphIndex := ∅,
           links := [] }

/-- The same node under a new identity. -/
def Node.renew (n : Node ρ) : Supply (Node ρ) := do
  return { n with ident := ← Supply.next }

/-- The same link under a new identity. -/
def Link.renew (l : Link ρ) : Supply (Link ρ) := do
  return { l with ident := ← Supply.next }

/-- The same graph under a new identity. -/
def Graph.renew (g : Graph ρ) : Supply (Graph ρ) := do
  return { g with ident := ← Supply.next }

/-! ## The tables of a graph -/

/-- The four attribute tables of a graph: its own attributes, and the defaults
it states for subgraphs, nodes and edges. -/
inductive GraphTable where
  | general | graphs | nodes | links
deriving DecidableEq

/-- The table that is meant. -/
def Graph.table (g : Graph ρ) : GraphTable → AttrTable
  | .general => g.attrs
  | .graphs => g.graphAttrs
  | .nodes => g.nodeAttrs
  | .links => g.linkAttrs

/-- The graph with one of its tables replaced. -/
def Graph.withTable (g : Graph ρ) (t : AttrTable) : GraphTable → Graph ρ
  | .general => { g with attrs := t }
  | .graphs => { g with graphAttrs := t }
  | .nodes => { g with nodeAttrs := t }
  | .links => { g with linkAttrs := t }

theorem Graph.table_withTable (g : Graph ρ) (t : AttrTable) (slot : GraphTable) :
    (g.withTable t slot).table slot = t := by
  cases slot <;> rfl

end DotDoc
