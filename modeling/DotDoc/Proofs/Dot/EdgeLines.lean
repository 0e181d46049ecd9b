import DotDoc.Proofs.Dot.Tree
import DotDoc.Proofs.Graph.Linearize

set_option autoImplicit false

/-!
# The edge lines of a block

A block has one edge line for each link of each of its sources. The lines of one source stand in
the order of its links (`Source.filter_edges_key`), so the lines that leave a name show the links
that the visited nodes of that name contribute, and the lines that leave a graph show the links of
the graph. What the lines of a block are is stated as a whole in `Graph.EdgesWritten`.
-/

namespace DotDoc

open Dot (Block Edge Endpoint)

variable {ρ : Type}

/-! ## The lines of one source -/

namespace Source

theorem filter_flatMap_key {ss : List (Source ρ)} (hnd : (ss.map key).Nodup) {s : Source ρ}
    (hs : s ∈ ss) :
    (ss.flatMap fun t => t.links.map fun l => (t, l)).filter (fun x => x.1.key == s.key) =
      s.links.map fun l => (s, l) := by
  induction ss with
  | nil => exact absurd hs List.not_mem_nil
  | cons t rest ih =>
      rw [List.map_cons, List.nodup_cons] at hnd
      rw [List.flatMap_cons, List.filter_append]
      -- the lines of one source are kept or dropped together, since keys are distinct
      rcases List.mem_cons.1 hs with rfl | hs
      · have hown : (s.links.map fun l => (s, l)).filter (fun x => x.1.key == s.key) =
            s.links.map fun l => (s, l) := by
          rw [List.filter_eq_self]
          intro x hx
          obtain ⟨l, -, rfl⟩ := List.mem_map.1 hx
          exact beq_self_eq_true _
        have hrest : (rest.flatMap fun t => t.links.map fun l => (t, l)).filter
            (fun x => x.1.key == s.key) = [] := by
          rw [List.filter_eq_nil_iff]
          intro x hx hkey
          apply hnd.1
          obtain ⟨t, ht, hx⟩ := List.mem_flatMap.1 hx
          obtain ⟨l, -, rfl⟩ := List.mem_map.1 hx
          exact beq_iff_eq.1 hkey ▸ List.mem_map_of_mem ht
        rw [hown, hrest, List.append_nil]
      · have hother : (t.links.map fun l => (t, l)).filter (fun x => x.1.key == s.key) = [] := by
          rw [List.filter_eq_nil_iff]
          intro x hx hkey
          apply hnd.1
          obtain ⟨l, -, rfl⟩ := List.mem_map.1 hx
          exact beq_iff_eq.1 hkey ▸ List.mem_map_of_mem hs
        rw [hother, List.nil_append, ih hnd.2 hs]

/-- **The edges of a collected source are its links in link order.** -/
theorem filter_edges_key {ss : List (Source ρ)} (hnd : (ss.map key).Nodup) {s : Source ρ}
    (hs : s ∈ ss) :
    (edges ss).filter (fun x => x.1.key == s.key) = s.links.map fun l => (s, l) := by
  have hnd' : ((edgeSources ss).map key).Nodup := ((edgeSources_perm ss).map key).nodup_iff.2 hnd
  exact filter_flatMap_key hnd' (mem_edgeSources.2 hs)

end Source

/-! ## The source that a line leaves -/

/-- What stands at an end of an edge: a name, or the block of a graph. -/
def Dot.Endpoint.key : Endpoint → SourceKey
  | point name .. => .node name
  | block b => .graph b.origin

/-- The lines that leave a name, or the block of a graph. -/
def Dot.Block.edgesFrom (b : Block) (k : SourceKey) : List Edge :=
  b.edges.filter fun e => e.source.key == k

theorem Dot.Endpoint.key_of_name {q : Endpoint} {name : Label} (h : q.name? = some name) :
    q.key = .node name := by
  cases q with
  | block b => cases h
  | point n record compass => exact congrArg SourceKey.node (Option.some.inj h)

theorem Dot.Edge.Shows.key_source {x : Source ρ × Link ρ} {e : Edge} (h : e.Shows x) :
    e.source.key = x.1.key := by
  obtain ⟨s, l⟩ := x
  have hs := h.source
  cases s with
  | node n => exact Endpoint.key_of_name (Endpoint.name_of_ofPort hs).1
  | graph k =>
      obtain ⟨c, hc, hq⟩ := Graph.eq_block_of_map hs
      obtain ⟨ss, hlaid⟩ := Graph.laid_of_block hc
      rw [hq]
      exact congrArg SourceKey.graph hlaid.origin

/-- Of a node that a link leaves, a line shows only the name. -/
theorem Dot.Edge.Shows.of_name {n m : Node ρ} {l : Link ρ} {e : Edge}
    (h : e.Shows (.node n, l)) (hname : n.name = m.name) : e.Shows (.node m, l) where
  origin := h.origin
  source := by
    show Endpoint.ofPort m.name l.sourcePort = _
    rw [← hname]
    exact h.source
  target := h.target
  attrs := h.attrs

/-! ## All lines of a block -/

namespace Graph

variable {g : Graph ρ} {ss : List (Source ρ)} {b : Block}

/-- What the edge lines of a graph's block are, where the sources collected for it are `ss`. -/
structure EdgesWritten (g : Graph ρ) (ss : List (Source ρ)) (b : Block) : Prop where
  sources : g.sources = .ok ss
  /-- Each reached source is visited, once; -/
  visited : ∀ s, s ∈ g.visits ↔ g.Reached s
  visited_once : (Source.idents g.visits).Nodup
  /-- it has one entry, under its key, and entries are for nothing else. -/
  collected : ∀ k, (∃ s ∈ ss, s.key = k) ↔ ∃ s, g.Reached s ∧ s.key = k
  collected_once : (ss.map Source.key).Nodup
  /-- The entry of a name holds what the visited nodes of that name contribute in turn; -/
  node_links : ∀ m, .node m ∈ ss → m.links = Node.contributed [] (g.nodesNamed m.name)
  /-- the entry of a graph is the graph. -/
  graph_entry : ∀ k, .graph k ∈ ss ↔ g.Reached (.graph k)
  /-- All entries have their turn, first the names and then the graphs. -/
  ordered : (Source.linearize ss).Perm ss
  lines : List.Forall₂ (fun x e => e.Shows x)
    (((Source.linearize ss).filter (fun s => !s.isGraph) ++
      (Source.linearize ss).filter Source.isGraph).flatMap fun s => s.links.map fun l => (s, l))
    b.edges
  /-- So the lines that leave a name are those of the contributed links, -/
  from_node : ∀ n, g.Reached (.node n) → List.Forall₂ (fun l e => e.Shows (.node n, l))
    (Node.contributed [] (g.nodesNamed n.name)) (b.edgesFrom (.node n.name))
  /-- each written as often as the first visited node that holds it does, -/
  times : ∀ n, g.Reached (.node n) → ∀ l ∈ n.links, ∃ first,
    (g.nodesNamed n.name).find? (Node.holdsLink l.ident) = some first ∧
      (b.edgesFrom (.node n.name)).countP (fun e => e.origin == l.ident) =
        Link.times first.links l.ident ∧
      0 < Link.times first.links l.ident
  /-- and the lines that leave a graph are those of its links. -/
  from_graph : ∀ k, g.Reached (.graph k) →
    List.Forall₂ (fun l e => e.Shows (.graph k, l)) k.links (b.edgesFrom (.graph k.ident))
  /-- There are no other lines. -/
  no_other : ∀ e ∈ b.edges, ∃ s, g.Reached s ∧ ∃ l ∈ s.links, e.Shows (s, l)

theorem Laid.edgesFrom (h : g.Laid ss b) {s : Source ρ} (hs : s ∈ ss) :
    List.Forall₂ (fun l e => e.Shows (s, l)) s.links (b.edgesFrom s.key) := by
  have hfilter : List.Forall₂ (fun x e => e.Shows x)
      ((Source.edges ss).filter fun x => x.1.key == s.key) (b.edgesFrom s.key) := by
    apply List.rel_filter _ h.edges
    intro x e hxe
    show (x.1.key == s.key) = true ↔ (e.source.key == s.key) = true
    rw [hxe.key_source]
  rw [Source.filter_edges_key (nodup_keys_sources h.sources) hs] at hfilter
  exact List.forall₂_map_left_iff.1 hfilter

theorem Laid.edgesFrom_node (hg : g.Coherent) (h : g.Laid ss b) {n : Node ρ}
    (hn : g.Reached (.node n)) : List.Forall₂ (fun l e => e.Shows (.node n, l))
      (Node.contributed [] (g.nodesNamed n.name)) (b.edgesFrom (.node n.name)) := by
  obtain ⟨s, hs, hkey⟩ := exists_entry h.sources ((mem_visits hg).2 hn)
  cases s with
  | graph k => cases hkey
  | node m =>
      -- the entry may be another object of that name, but a line shows only the name
      have hname : m.name = n.name := SourceKey.node.inj hkey
      have hlines := h.edgesFrom hs
      rw [Source.links, links_of_node_mem_sources h.sources hs, Source.key, hname] at hlines
      exact hlines.imp fun l e he => he.of_name hname

/-- A link of a reached node is written as often as the first visited node of that name that holds
it does. -/
theorem Laid.countP_edgesFrom (hg : g.Coherent) (h : g.Laid ss b) {n : Node ρ}
    (hn : g.Reached (.node n)) {l : Link ρ} (hl : l ∈ n.links) : ∃ first,
      (g.nodesNamed n.name).find? (Node.holdsLink l.ident) = some first ∧
        (b.edgesFrom (.node n.name)).countP (fun e => e.origin == l.ident) =
          Link.times first.links l.ident ∧
        0 < Link.times first.links l.ident := by
  have hholds : n.holdsLink l.ident = true := Link.among_iff.2 ⟨l, hl, rfl⟩
  have hnamed : n ∈ g.nodesNamed n.name := mem_nodesNamed.2 ⟨(mem_visits hg).2 hn, rfl⟩
  cases hf : (g.nodesNamed n.name).find? (Node.holdsLink l.ident) with
  | none => exact absurd hholds (List.find?_eq_none.1 hf n hnamed)
  | some first =>
      have hcount : Link.times (Node.contributed [] (g.nodesNamed n.name)) l.ident =
          Link.times first.links l.ident := by
        rw [Node.times_contributed, hf]
        rfl
      have hfirst : first.holdsLink l.ident = true := List.find?_some hf
      refine ⟨first, rfl, ?_, Link.times_pos_iff.2 hfirst⟩
      rw [← hcount]
      symm
      apply countP_forall₂ _ (h.edgesFrom_node hg hn)
      intro l' e he
      rw [he.origin]

theorem Laid.exists_link_of_mem_edges (h : g.Laid ss b) {e : Edge} (he : e ∈ b.edges) :
    ∃ s, g.Reached s ∧ ∃ l ∈ s.links, e.Shows (s, l) := by
  obtain ⟨⟨s, l⟩, hx, hshows⟩ := exists_of_forall₂_right h.edges he
  obtain ⟨hs, hl⟩ := Source.mem_edges_iff.1 hx
  cases s with
  | graph k =>
      have hk := (graph_mem_sources h.sources).1 hs
      exact ⟨.graph k, reached_of_mem_visits hk, l, hl, hshows⟩
  | node m =>
      obtain ⟨v, hv, hkey, hlv⟩ := exists_visit_of_link h.sources hs hl
      refine ⟨v, reached_of_mem_visits hv, l, hlv, ?_⟩
      cases v with
      | graph k => cases hkey
      | node n => exact hshows.of_name (SourceKey.node.inj hkey).symm

theorem Laid.edgesWritten (hg : g.Coherent) (h : g.Laid ss b) : g.EdgesWritten ss b where
  sources := h.sources
  visited _ := mem_visits hg
  visited_once := g.nodup_visits
  collected k := by
    constructor
    · rintro ⟨s, hs, hkey⟩
      obtain ⟨v, hv, hkv⟩ := exists_visit h.sources hs
      exact ⟨v, reached_of_mem_visits hv, hkv.trans hkey⟩
    · rintro ⟨s, hs, hkey⟩
      obtain ⟨e, he, hke⟩ := exists_entry h.sources ((mem_visits hg).2 hs)
      exact ⟨e, he, hke.trans hkey⟩
  collected_once := nodup_keys_sources h.sources
  node_links _ hm := links_of_node_mem_sources h.sources hm
  graph_entry k := (graph_mem_sources h.sources).trans (mem_visits hg)
  ordered := Source.linearize_perm ss
  lines := h.edges
  from_node _ hn := h.edgesFrom_node hg hn
  times _ hn _ hl := h.countP_edgesFrom hg hn hl
  from_graph _ hk := h.edgesFrom (graph_mem_of_reached hg h.sources hk)
  no_other _ he := h.exists_link_of_mem_edges he

end Graph

end DotDoc
