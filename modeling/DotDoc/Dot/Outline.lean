import DotDoc.Graph.Linearize
import DotDoc.Dot.Block

set_option autoImplicit false

/-!
# The document of a graph

The block of a graph is laid out from its link sources. A node gets a statement
if it has attributes, or if it is declared and takes part in no edge. A graph
that takes part in no edge stands alone. The edge lines follow the linearized
sources, those of nodes before those of graphs.

A graph that takes part in an edge is written out at every end it forms, so the
blocks of a document repeat what is reached more than once.

Main statement: `Graph.block_eq` gives the block of a graph in terms of the
blocks of smaller graphs.
-/

namespace DotDoc

variable {ρ : Type}

open Dot (AttrList Block Edge Endpoint NodeStatement Document Dialect)

/-! ## What stands in a block -/

/-- The keys of all link targets, once per link. -/
def Source.targetKeys (ss : List (Source ρ)) : List SourceKey :=
  ss.flatMap fun s => s.links.filterMap fun l => l.target.key?

/-- The nodes among the sources. -/
def Source.nodes (ss : List (Source ρ)) : List (Node ρ) :=
  ss.filterMap fun
    | .node n => some n
    | .graph _ => none

/-- The graphs among the sources. -/
def Source.graphs (ss : List (Source ρ)) : List (Graph ρ) :=
  ss.filterMap fun
    | .node _ => none
    | .graph g => some g

/-- The graph declares a node of that name. -/
def Graph.declares (g : Graph ρ) (name : Label) : Bool := g.nodes.any fun n => n.name == name

/-- The nodes that get a statement in the graph's block. -/
def Graph.statedNodes (g : Graph ρ) (ss : List (Source ρ)) : List (Node ρ) :=
  (Source.nodes ss).filter fun n =>
    !n.attrs.isEmpty
      || (n.links.isEmpty && g.declares n.name && !(Source.targetKeys ss).contains (.node n.name))

/-- The graphs that stand alone in a block. -/
def Source.aloneGraphs (ss : List (Source ρ)) : List (Graph ρ) :=
  (Source.graphs ss).filter fun h =>
    h.links.isEmpty && !(targetKeys ss).contains (.graph h.ident)

/-- The sources of the edge lines: nodes, then graphs. -/
def Source.edgeSources (ss : List (Source ρ)) : List (Source ρ) :=
  let linked := linearize ss
  linked.filter (fun s => !s.isGraph) ++ linked.filter Source.isGraph

/-- The edges of a block, each with its source. -/
def Source.edges (ss : List (Source ρ)) : List (Source ρ × Link ρ) :=
  (edgeSources ss).flatMap fun s => s.links.map fun l => (s, l)

/-! ## Writing ends -/

/-- The record name as it is written. -/
def RecordName.written : RecordName ρ → Except (Unwritable ρ) (Option Label)
  | absent => .ok none
  | text s => .ok (some ⟨s, false⟩)
  | label l => .ok (some l)
  | foreign v => .error (.record v)

/-- A place at something of that name as the end of an edge. -/
def Dot.Endpoint.ofPort (name : Label) (p : Port ρ) : Except (Unwritable ρ) Endpoint := do
  return .point name (← p.record.written) p.compass

/-- An endpoint as the end of an edge. A graph that it is anchored at is not
written out; its name stands for it. -/
def Dot.Endpoint.ofPoint (p : NodePoint ρ) : Except (Unwritable ρ) Endpoint :=
  match p.anchor, p.place with
  | .foreign v, _ => .error (.anchor v)
  | .source _, .foreign v => .error (.place v)
  | .source s, .port q => Endpoint.ofPort s.name q

/-! ## Ends are smaller than the block -/

theorem Source.mem_of_mem_edgeSources {ss : List (Source ρ)} {s : Source ρ}
    (h : s ∈ edgeSources ss) : s ∈ ss := by
  have hl : s ∈ linearize ss := by
    rcases List.mem_append.1 h with h | h
    · exact (List.mem_filter.1 h).1
    · exact (List.mem_filter.1 h).1
  obtain ⟨i, -, rfl⟩ := List.mem_map.1 hl
  exact List.getElem_mem _

theorem Source.mem_edges {ss : List (Source ρ)} {e : Source ρ × Link ρ} (h : e ∈ edges ss) :
    e.1 ∈ ss ∧ e.2 ∈ e.1.links := by
  obtain ⟨s, hs, he⟩ := List.mem_flatMap.1 h
  obtain ⟨l, hl, rfl⟩ := List.mem_map.1 he
  exact ⟨mem_of_mem_edgeSources hs, hl⟩

theorem Graph.sizeOf_aloneGraphs {g h : Graph ρ} {ss : List (Source ρ)} (hs : g.sources = .ok ss)
    (hh : h ∈ Source.aloneGraphs ss) : sizeOf h < sizeOf g := by
  have hg := (List.mem_filter.1 hh).1
  obtain ⟨s, hm, hsome⟩ := List.mem_filterMap.1 hg
  cases s with
  | node n => cases hsome
  | graph h' =>
    simp only [Option.some.injEq] at hsome
    subst hsome
    exact (Graph.sizeOf_sources hs _ hm).2 _ rfl

theorem Graph.sizeOf_edgeSource {g h : Graph ρ} {ss : List (Source ρ)} {l : Link ρ}
    (hs : g.sources = .ok ss) (he : (Source.graph h, l) ∈ Source.edges ss) :
    sizeOf h < sizeOf g :=
  (Graph.sizeOf_sources hs _ (Source.mem_edges he).1).2 h rfl

theorem Graph.sizeOf_edgeTarget {g h : Graph ρ} {ss : List (Source ρ)} {e : Source ρ × Link ρ}
    (hs : g.sources = .ok ss) (he : e ∈ Source.edges ss) (ht : e.2.target = .graph h) :
    sizeOf h < sizeOf g := by
  obtain ⟨h1, h2⟩ := Source.mem_edges he
  have h3 := (Graph.sizeOf_sources hs _ h1).1 _ h2
  have h4 := e.2.sizeOf_target
  rw [ht] at h4
  simp only [Target.graph.sizeOf_spec] at h4
  omega

/-! ## Blocks -/

/-- An edge line from its two ends; a failure of the source comes first. -/
def Dot.Edge.ofEnds (l : Link ρ) (source target : Except (Unwritable ρ) Endpoint) :
    Except (Unwritable ρ) Edge := do
  return { origin := l.ident, source := ← source, target := ← target, attrs := l.attrs.written }

/-- A block from its nested blocks and edge lines. -/
def Graph.blockOfParts (g : Graph ρ) (ss : List (Source ρ)) (alone : List Block)
    (edges : List Edge) : Block :=
  { origin := g.ident
    name := g.name
    graphAttrs := g.graphAttrs.written
    nodeAttrs := g.nodeAttrs.written
    edgeAttrs := g.linkAttrs.written
    attrs := g.attrs.written
    nodes := (g.statedNodes ss).map fun n => ⟨n.name, n.attrs.written⟩
    alone
    edges }

set_option linter.unusedVariables false in
/-- The block that is written for a graph. -/
def Graph.block (g : Graph ρ) : Except (Unwritable ρ) Block :=
  match hs : g.sources with
  | .error e => .error e
  | .ok ss => do
    let alone ← (Source.aloneGraphs ss).attach.mapM fun h => h.1.block
    let edges ← (Source.edges ss).attach.mapM fun e => Edge.ofEnds e.1.2
      (match hsrc : e.1.1 with
        | .node n => Endpoint.ofPort n.name e.1.2.sourcePort
        | .graph h => h.block.map .block)
      (match htgt : e.1.2.target with
        | .point p => Endpoint.ofPoint p
        | .graph h => h.block.map .block
        | .foreign t => .error (.target t))
    return g.blockOfParts ss alone edges
termination_by sizeOf g
decreasing_by
  · exact Graph.sizeOf_aloneGraphs hs h.2
  · refine Graph.sizeOf_edgeSource (l := e.1.2) hs ?_
    rw [← hsrc]
    exact e.2
  · exact Graph.sizeOf_edgeTarget hs e.2 htgt

/-- The end of an edge at its source. -/
def Source.endpoint (s : Source ρ) (l : Link ρ) : Except (Unwritable ρ) Endpoint :=
  match s with
  | .node n => Endpoint.ofPort n.name l.sourcePort
  | .graph h => h.block.map .block

/-- The end of an edge at its target. -/
def Target.endpoint : Target ρ → Except (Unwritable ρ) Endpoint
  | .point p => Endpoint.ofPoint p
  | .graph h => h.block.map .block
  | .foreign t => .error (.target t)

/-- The block of a graph in terms of its sources and edges. -/
theorem Graph.block_eq (g : Graph ρ) :
    g.block = g.sources.bind fun ss => do
      let alone ← (Source.aloneGraphs ss).mapM Graph.block
      let edges ← (Source.edges ss).mapM fun e =>
        Edge.ofEnds e.2 (e.1.endpoint e.2) e.2.target.endpoint
      return g.blockOfParts ss alone edges := by
  rw [Graph.block]
  split
  · rename_i e h
    simp [h, Except.bind]
  · rename_i ss h
    rw [h, List.mapM_subtype (fun (x : Graph ρ) _ => rfl (a := x.block)), List.unattach_attach,
      List.mapM_subtype (g := fun e => Edge.ofEnds e.2 (e.1.endpoint e.2) e.2.target.endpoint),
      List.unattach_attach]
    · rfl
    · rintro ⟨s, l⟩ hm
      obtain ⟨_, target, _, _⟩ := l
      cases s <;> cases target <;> rfl

/-! ## Documents -/

namespace Graph

/-- The document of a graph. -/
def document (g : Graph ρ) : Except (Unwritable ρ) Document := do
  return { strict := g.strict, directed := g.directed, block := ← g.block }

/-- The text of a graph's document. -/
def serialize (g : Graph ρ) (d : Dialect) : Except (Unwritable ρ) String := do
  return (← g.document).text d

end Graph

end DotDoc
