import DotDoc.Proofs.Dot.Tree
import DotDoc.Proofs.Graph.Linearize
import Mathlib.Algebra.Ring.Nat

set_option autoImplicit false

/-!
# What is reached is written

Whether a node or a graph is written in a block is decided in four places: by the filter of the node
statements, by the filter of the blocks that stand alone, and at the two ends of the edge lines.
Together they leave no gap. The name of every reached node is written (`Laid.mentions_of_reached`),
and a reached graph is written exactly once if it takes part in no edge, and else once for each end
of an edge that it forms (`Laid.countP_inner`).
-/

namespace DotDoc

open Dot (Block Edge Endpoint)

variable {ρ : Type}

/-! ## Sums over entries -/

/-- Only one entry has a given key. -/
theorem sum_map_ite_key {α κ : Type} [DecidableEq κ] (f : α → κ) (w : α → Nat) {xs : List α}
    (hnd : (xs.map f).Nodup) {a : α} (ha : a ∈ xs) :
    (xs.map fun x => if f x = f a then w x else 0).sum = w a := by
  induction xs with
  | nil => exact absurd ha List.not_mem_nil
  | cons x rest ih =>
      rw [List.map_cons, List.nodup_cons] at hnd
      rw [List.map_cons, List.sum_cons]
      rcases List.mem_cons.1 ha with rfl | ha
      · have hrest : (rest.map fun x => if f x = f a then w x else 0) = rest.map fun _ => 0 := by
          apply List.map_congr_left
          intro x hx
          apply if_neg
          intro h
          exact hnd.1 (h ▸ List.mem_map_of_mem hx)
        rw [if_pos rfl, hrest]
        simp
      · have hx : f x ≠ f a := fun h => hnd.1 (h ▸ List.mem_map_of_mem ha)
        rw [if_neg hx, Nat.zero_add, ih hnd.2 ha]

/-! ## Names and graphs in a block -/

/-- The name is written in the block outside the blocks that it shows: in a node statement, or at
an end of an edge. -/
def Dot.Block.Mentions (b : Block) (name : Label) : Prop :=
  (∃ n ∈ b.nodes, n.name = name) ∨
    ∃ e ∈ b.edges, e.source.name? = some name ∨ e.target.name? = some name

/-- The target is the graph of that number. -/
def Target.isGraphOf (i : Nat) : Target ρ → Bool
  | point _ => false
  | graph h => h.ident == i
  | foreign _ => false

/-- How many links of some sources have the graph of that number for their target. -/
def Source.timesTargeted (ss : List (Source ρ)) (i : Nat) : Nat :=
  (ss.flatMap Source.links).countP fun l => l.target.isGraphOf i

/-- An endpoint made from the graph of that number is the target of a link of some sources. -/
def Source.PointsAt (ss : List (Source ρ)) (i : Nat) : Prop :=
  ∃ s ∈ ss, ∃ l ∈ s.links, ∃ p, l.target = .point p ∧ p.anchor.key? = some (.graph i)

theorem Source.mem_graphs {ss : List (Source ρ)} {h : Graph ρ} :
    h ∈ Source.graphs ss ↔ .graph h ∈ ss := by
  rw [Source.graphs, List.mem_filterMap]
  constructor
  · rintro ⟨s, hs, hsome⟩
    cases s with
    | node n => cases hsome
    | graph k =>
        cases hsome
        exact hs
  · exact fun hh => ⟨.graph h, hh, rfl⟩

theorem Source.mem_targetKeys {ss : List (Source ρ)} {k : SourceKey} :
    k ∈ targetKeys ss ↔ ∃ s ∈ ss, ∃ l ∈ s.links, l.target.key? = some k := by
  rw [targetKeys, List.mem_flatMap]
  simp only [List.mem_filterMap]

theorem Source.graph_mem_targetKeys {ss : List (Source ρ)} {i : Nat} :
    .graph i ∈ targetKeys ss ↔ timesTargeted ss i ≠ 0 ∨ PointsAt ss i := by
  rw [mem_targetKeys, timesTargeted, ← Nat.pos_iff_ne_zero, List.countP_pos_iff]
  -- a link leads to a graph by itself or by an endpoint made from it
  constructor
  · rintro ⟨s, hs, l, hl, hkey⟩
    cases ht : l.target with
    | foreign t =>
        rw [ht] at hkey
        cases hkey
    | graph h =>
        rw [ht] at hkey
        refine .inl ⟨l, List.mem_flatMap.2 ⟨s, hs, hl⟩, ?_⟩
        rw [ht]
        exact beq_iff_eq.2 (SourceKey.graph.inj (Option.some.inj hkey))
    | point p =>
        rw [ht] at hkey
        right
        exact ⟨s, hs, l, hl, p, ht, hkey⟩
  · rintro (⟨l, hl, hgraph⟩ | ⟨s, hs, l, hl, p, ht, hkey⟩)
    · obtain ⟨s, hs, hls⟩ := List.mem_flatMap.1 hl
      refine ⟨s, hs, l, hls, ?_⟩
      cases ht : l.target with
      | foreign t =>
          rw [ht] at hgraph
          cases hgraph
      | point p =>
          rw [ht] at hgraph
          cases hgraph
      | graph h =>
          rw [ht] at hgraph
          exact congrArg (fun j => some (SourceKey.graph j)) (beq_iff_eq.1 hgraph)
    · refine ⟨s, hs, l, hl, ?_⟩
      rw [ht]
      exact hkey

theorem Source.key_nodes_sublist (ss : List (Source ρ)) :
    ((Source.nodes ss).map fun n => SourceKey.node n.name).Sublist (ss.map Source.key) := by
  induction ss with
  | nil => exact .slnil
  | cons s rest ih =>
      cases s with
      | node n => exact ih.cons_cons _
      | graph h => exact ih.cons _

theorem Source.key_graphs_sublist (ss : List (Source ρ)) :
    ((Source.graphs ss).map fun h => SourceKey.graph h.ident).Sublist (ss.map Source.key) := by
  induction ss with
  | nil => exact .slnil
  | cons s rest ih =>
      cases s with
      | node n => exact ih.cons _
      | graph h => exact ih.cons_cons _

namespace Graph

variable {g : Graph ρ} {ss : List (Source ρ)} {b : Block}

/-! ## Names -/

theorem Laid.mem_edge (h : g.Laid ss b) {s : Source ρ} {l : Link ρ} (hs : s ∈ ss)
    (hl : l ∈ s.links) : ∃ e ∈ b.edges, e.Shows (s, l) :=
  exists_of_forall₂_left h.edges (Source.mem_edges_iff.2 ⟨hs, hl⟩)

/-- The name of a target is written at the end of its edge. -/
theorem Laid.mentions_of_target (h : g.Laid ss b) {name : Label}
    (hk : SourceKey.node name ∈ Source.targetKeys ss) : b.Mentions name := by
  obtain ⟨s, hs, l, hl, hkey⟩ := Source.mem_targetKeys.1 hk
  obtain ⟨e, he, hshows⟩ := h.mem_edge hs hl
  refine .inr ⟨e, he, .inr ?_⟩
  have htarget := hshows.target
  generalize e.target = q at htarget ⊢
  generalize l.target = t at hkey htarget
  cases t with
  | graph k => cases hkey
  | foreign t => cases hkey
  | point p =>
      obtain ⟨s', hs', hname, -⟩ := Endpoint.name_of_ofPoint htarget
      have hkey' : p.anchor.key? = some (.node name) := hkey
      rw [hs'] at hkey'
      cases s' with
      | graph k => cases hkey'
      | node n =>
          cases hkey'
          exact hname

/-- The name of a node that holds a link is written at the beginning of its edge. -/
theorem Laid.mentions_of_link (h : g.Laid ss b) {m : Node ρ} (hs : .node m ∈ ss) {l : Link ρ}
    (hl : l ∈ m.links) : b.Mentions m.name := by
  obtain ⟨e, he, hshows⟩ := h.mem_edge hs hl
  exact .inr ⟨e, he, .inl (Endpoint.name_of_ofPort hshows.source).1⟩

/-- A node that is declared, holds no link and is no target has a statement. -/
theorem Laid.mentions_of_declared (h : g.Laid ss b) {m : Node ρ} (hs : .node m ∈ ss)
    (hl : m.links = []) (hk : SourceKey.node m.name ∉ Source.targetKeys ss)
    (hd : g.declares m.name = true) : b.Mentions m.name := by
  have hstated : m ∈ g.statedNodes ss := by
    refine List.mem_filter.2 ⟨Source.mem_nodes.2 hs, ?_⟩
    have hnk : (Source.targetKeys ss).contains (.node m.name) = false := by
      simpa using hk
    rw [hl, hnk, hd]
    simp
  refine .inl ⟨⟨m.name, m.attrs.written⟩, ?_, rfl⟩
  rw [h.nodes]
  exact List.mem_map_of_mem hstated

/-- What is reached is declared or it is the target of a collected link. -/
theorem declares_of_reached (hg : g.Coherent) (hss : g.sources = .ok ss) {n : Node ρ}
    (hn : g.Reached (.node n)) (hk : SourceKey.node n.name ∉ Source.targetKeys ss) :
    g.declares n.name = true := by
  cases hn with
  | declared hd =>
      rcases List.mem_append.1 hd with hd | hd
      · obtain ⟨n', hn', heq⟩ := List.mem_map.1 hd
        cases heq
        exact List.any_eq_true.2 ⟨n, hn', beq_self_eq_true _⟩
      · obtain ⟨k, -, heq⟩ := List.mem_map.1 hd
        cases heq
  | linked hu ht =>
      -- the link stays with the entry that its source is collected in
      obtain ⟨l, hlu, hanchor⟩ := ht
      have hv := (mem_visits hg).2 hu
      obtain ⟨s, hs, hkey⟩ := exists_entry hss hv
      have hls := link_mem_entry hg hss hv hs hkey hlu
      have htarget : l.target.key? = some (.node n.name) := by
        rw [Target.key?, hanchor]
        rfl
      exact absurd (Source.mem_targetKeys.2 ⟨s, hs, l, hls, htarget⟩) hk

/-- **The name of every reached node is written in the block.** -/
theorem Laid.mentions_of_reached (hg : g.Coherent) (h : g.Laid ss b) {n : Node ρ}
    (hn : g.Reached (.node n)) : b.Mentions n.name := by
  obtain ⟨s, hs, hkey⟩ := exists_entry h.sources ((mem_visits hg).2 hn)
  cases s with
  | graph k => cases hkey
  | node m =>
      have hname : m.name = n.name := SourceKey.node.inj hkey
      -- the filter of the statements leaves a node out only if an edge shows it
      by_cases hk : SourceKey.node n.name ∈ Source.targetKeys ss
      · exact h.mentions_of_target hk
      · have hdecl := declares_of_reached hg h.sources hn hk
        rw [← hname] at hk hdecl ⊢
        cases hl : m.links with
        | nil => exact h.mentions_of_declared hs hl hk hdecl
        | cons l rest =>
            have hmem : l ∈ m.links := hl ▸ List.mem_cons_self
            exact h.mentions_of_link hs hmem

/-- No name has two statements. -/
theorem Laid.nodup_names (h : g.Laid ss b) : (b.nodes.map (·.name)).Nodup := by
  have hkeys : ((g.statedNodes ss).map fun n => SourceKey.node n.name).Nodup := by
    refine List.Nodup.sublist ?_ (nodup_keys_sources h.sources)
    exact (List.filter_sublist.map _).trans (Source.key_nodes_sublist ss)
  rw [h.nodes, List.map_map]
  have hmap : ((g.statedNodes ss).map fun n => SourceKey.node n.name) =
      ((g.statedNodes ss).map fun n => n.name).map SourceKey.node := by
    rw [List.map_map]
    rfl
  rw [hmap] at hkeys
  exact List.Nodup.of_map _ hkeys

/-! ## Graphs -/

theorem origin_of_block {h : Graph ρ} {c : Block} (hc : h.block = .ok c) : c.origin = h.ident := by
  obtain ⟨ss, hlaid⟩ := laid_of_block hc
  exact hlaid.origin

theorem Laid.nodup_idents_alone (h : g.Laid ss b) :
    ((Source.aloneGraphs ss).map Graph.ident).Nodup := by
  have hkeys : ((Source.aloneGraphs ss).map fun h => SourceKey.graph h.ident).Nodup := by
    refine List.Nodup.sublist ?_ (nodup_keys_sources h.sources)
    exact (List.filter_sublist.map _).trans (Source.key_graphs_sublist ss)
  refine List.Nodup.of_map SourceKey.graph ?_
  rw [List.map_map]
  exact hkeys

/-- A graph stands alone in a block at most once. -/
theorem Laid.count_alone (h : g.Laid ss b) {k : Graph ρ} (hk : .graph k ∈ ss) :
    b.alone.countP (fun c => c.origin == k.ident) =
      if k.links = [] ∧ SourceKey.graph k.ident ∉ Source.targetKeys ss then 1 else 0 := by
  have hmem : k.ident ∈ (Source.aloneGraphs ss).map Graph.ident ↔
      k.links = [] ∧ SourceKey.graph k.ident ∉ Source.targetKeys ss := by
    rw [List.mem_map]
    constructor
    · rintro ⟨k', hk', hi⟩
      -- entries have distinct keys, so the graph that stands alone is the collected one
      have heq : Source.graph k' = .graph k :=
        sources_eq_of_key h.sources (mem_aloneGraphs hk') hk (congrArg SourceKey.graph hi)
      cases heq
      simpa using (List.mem_filter.1 hk').2
    · rintro ⟨hl, ht⟩
      refine ⟨k, List.mem_filter.2 ⟨Source.mem_graphs.2 hk, ?_⟩, rfl⟩
      simpa [hl] using ht
  have hcount : b.alone.countP (fun c => c.origin == k.ident) =
      ((Source.aloneGraphs ss).map Graph.ident).count k.ident := by
    rw [List.count, List.countP_map]
    symm
    apply countP_forall₂ _ h.alone
    intro x y hxy
    rw [origin_of_block hxy]
    rfl
  rw [hcount, h.nodup_idents_alone.count]
  exact if_congr hmem rfl rfl

end Graph

/-! ## Graphs at the ends of edges -/

theorem Dot.Endpoint.countP_block {p : Endpoint} (i : Nat) :
    p.block?.toList.countP (fun c => c.origin == i) =
      if p.block?.any (fun c => c.origin == i) then 1 else 0 := by
  cases p with
  | point name record compass => rfl
  | block c => exact List.countP_singleton

/-- An edge shows a graph once for each end that the graph forms. -/
theorem Dot.Edge.Shows.countP_inner {x : Source ρ × Link ρ} {e : Edge} (h : e.Shows x) (i : Nat) :
    e.inner.countP (fun c => c.origin == i) =
      (if x.1.key == .graph i then 1 else 0) + if x.2.target.isGraphOf i then 1 else 0 := by
  obtain ⟨s, l⟩ := x
  have hsource : e.source.block?.any (fun c => c.origin == i) = (s.key == .graph i) := by
    have hs := h.source
    generalize e.source = q at hs
    cases s with
    | node n => rw [(Endpoint.name_of_ofPort hs).2]; rfl
    | graph k =>
        obtain ⟨c, hc, rfl⟩ := Graph.eq_block_of_map hs
        have := Graph.origin_of_block hc
        simp [Endpoint.block?, Source.key, this]
  have htarget : e.target.block?.any (fun c => c.origin == i) = l.target.isGraphOf i := by
    have ht := h.target
    generalize e.target = q at ht
    change l.target.endpoint = .ok q at ht
    cases hl : l.target with
    | foreign t => rw [hl] at ht; cases ht
    | point p =>
        rw [hl] at ht
        obtain ⟨-, -, -, hnone⟩ := Endpoint.name_of_ofPoint ht
        rw [hnone]
        rfl
    | graph k =>
        rw [hl] at ht
        obtain ⟨c, hc, rfl⟩ := Graph.eq_block_of_map ht
        have := Graph.origin_of_block hc
        simp [Endpoint.block?, Target.isGraphOf, this]
  rw [Edge.inner, List.countP_append, Endpoint.countP_block, Endpoint.countP_block, hsource,
    htarget]

theorem Dot.Edge.countP_flatMap_inner {xs : List (Source ρ × Link ρ)} {es : List Edge} (i : Nat)
    (h : List.Forall₂ (fun x e => e.Shows x) xs es) :
    (es.flatMap Edge.inner).countP (fun c => c.origin == i) =
      xs.countP (fun x => x.1.key == .graph i) + xs.countP fun x => x.2.target.isGraphOf i := by
  induction h with
  | nil => rfl
  | cons hxe _ ih =>
      -- both ends of the first edge, then the ends of the others
      rw [List.flatMap_cons, List.countP_append, ih, hxe.countP_inner, List.countP_cons,
        List.countP_cons]
      omega

namespace Source

theorem countP_edges_key {ss : List (Source ρ)} (hnd : (ss.map key).Nodup) {k : Graph ρ}
    (hk : .graph k ∈ ss) : (edges ss).countP (fun x => x.1.key == .graph k.ident) =
      k.links.length := by
  have hsum : (edges ss).countP (fun x => x.1.key == .graph k.ident) =
      (ss.map fun s => if s.key = (graph k).key then s.links.length else 0).sum := by
    -- the order of the edges does not matter for a count
    rw [(edges_perm ss).countP_eq, List.countP_flatMap]
    apply congrArg List.sum
    apply List.map_congr_left
    intro s _
    show ((s.links.map fun l => (s, l)).countP fun x => x.1.key == .graph k.ident) = _
    rw [List.countP_map]
    by_cases hs : s.key = (graph k).key
    · rw [if_pos hs]
      exact List.countP_eq_length.2 fun l _ => beq_iff_eq.2 hs
    · rw [if_neg hs]
      exact List.countP_eq_zero.2 fun l _ h => hs (beq_iff_eq.1 h)
  rw [hsum]
  exact sum_map_ite_key key (fun s => s.links.length) hnd hk

theorem countP_edges_target (ss : List (Source ρ)) (i : Nat) :
    (edges ss).countP (fun x => x.2.target.isGraphOf i) = timesTargeted ss i := by
  rw [(edges_perm ss).countP_eq, timesTargeted, List.countP_flatMap, List.countP_flatMap]
  apply congrArg List.sum
  apply List.map_congr_left
  intro s _
  exact List.countP_map

end Source

namespace Graph

variable {g : Graph ρ} {ss : List (Source ρ)} {b : Block}

/-- **A collected graph is written once if it stands alone, and besides once for each link that it
holds and for each collected link that has it for its target.** -/
theorem Laid.countP_inner (h : g.Laid ss b) {k : Graph ρ} (hk : .graph k ∈ ss) :
    b.inner.countP (fun c => c.origin == k.ident) =
      (if k.links = [] ∧ SourceKey.graph k.ident ∉ Source.targetKeys ss then 1 else 0) +
        (k.links.length + Source.timesTargeted ss k.ident) := by
  rw [Block.inner, List.countP_append, h.count_alone hk, Edge.countP_flatMap_inner k.ident h.edges,
    Source.countP_edges_key (nodup_keys_sources h.sources) hk, Source.countP_edges_target]

/-! ## All that is reached -/

/-- What the block of a graph shows of all that the graph reaches, where the sources collected for
the block are `ss`. -/
structure Covered (g : Graph ρ) (ss : List (Source ρ)) (b : Block) : Prop where
  /-- The name of a reached node is written, -/
  named : ∀ n, g.Reached (.node n) → b.Mentions n.name
  /-- with one statement at most. -/
  stated_once : (b.nodes.map (·.name)).Nodup
  /-- What is written for a reached graph is its block. -/
  shown : ∀ k, g.Reached (.graph k) → ∀ c ∈ b.inner, c.origin = k.ident → k.block = .ok c
  /-- A reached graph that takes part in no edge is written once. -/
  alone : ∀ k, g.Reached (.graph k) → k.links = [] → Source.timesTargeted ss k.ident = 0 →
    ¬ Source.PointsAt ss k.ident → b.inner.countP (fun c => c.origin == k.ident) = 1
  /-- It is not written if it takes part in edges only by endpoints made from it. -/
  pointed : ∀ k, g.Reached (.graph k) → k.links = [] → Source.timesTargeted ss k.ident = 0 →
    Source.PointsAt ss k.ident → b.inner.countP (fun c => c.origin == k.ident) = 0
  /-- Else it is written once for each end of an edge that it forms. -/
  ends : ∀ k, g.Reached (.graph k) → (k.links ≠ [] ∨ Source.timesTargeted ss k.ident ≠ 0) →
    b.inner.countP (fun c => c.origin == k.ident) =
      k.links.length + Source.timesTargeted ss k.ident ∧
    b.inner.countP (fun c => c.origin == k.ident) ≠ 0

/-- A block within the block that has the number of a reached graph is the block of that graph. -/
theorem Laid.block_of_origin (hg : g.Coherent) (h : g.Laid ss b) {k : Graph ρ}
    (hk : g.Reached (.graph k)) {c : Block} (hc : c ∈ b.inner) (hi : c.origin = k.ident) :
    k.block = .ok c := by
  obtain ⟨k', hk', hkc⟩ := h.exists_graph_of_mem_inner hc
  have heq : Source.graph k' = .graph k :=
    hg.source_eq hk'.holds hk.holds ((origin_of_block hkc).symm.trans hi)
  cases heq
  exact hkc

theorem Laid.covered (hg : g.Coherent) (h : g.Laid ss b) : g.Covered ss b where
  named _ hn := h.mentions_of_reached hg hn
  stated_once := h.nodup_names
  shown _ hk _ hc hi := h.block_of_origin hg hk hc hi
  alone k hk hl ht hp := by
    have hkeys : SourceKey.graph k.ident ∉ Source.targetKeys ss := by
      rw [Source.graph_mem_targetKeys]
      exact not_or_intro (not_not_intro ht) hp
    rw [h.countP_inner (graph_mem_of_reached hg h.sources hk), if_pos ⟨hl, hkeys⟩, hl, ht,
      List.length_nil]
  pointed k hk hl ht hp := by
    have hkeys : SourceKey.graph k.ident ∈ Source.targetKeys ss :=
      Source.graph_mem_targetKeys.2 (.inr hp)
    rw [h.countP_inner (graph_mem_of_reached hg h.sources hk), if_neg fun h => h.2 hkeys, hl, ht,
      List.length_nil]
  ends k hk hends := by
    have hnot : ¬ (k.links = [] ∧ SourceKey.graph k.ident ∉ Source.targetKeys ss) := by
      rintro ⟨hl, ht⟩
      rcases hends with hne | hne
      · exact hne hl
      · exact ht (Source.graph_mem_targetKeys.2 (.inl hne))
    have hpos : 0 < k.links.length + Source.timesTargeted ss k.ident := by
      rcases hends with hne | hne
      · have := List.length_pos_iff.2 hne
        omega
      · omega
    rw [h.countP_inner (graph_mem_of_reached hg h.sources hk), if_neg hnot, Nat.zero_add]
    exact ⟨rfl, Nat.pos_iff_ne_zero.1 hpos⟩

end Graph

end DotDoc
