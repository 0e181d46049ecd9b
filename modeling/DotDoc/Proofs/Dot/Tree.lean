import DotDoc.Proofs.Graph.Entries
import DotDoc.Proofs.Order.Placement
import Mathlib.Data.List.Forall2
import Mathlib.Data.List.Perm.Basic

set_option autoImplicit false

/-!
# Blocks within blocks

A block shows other blocks: those that stand alone in it and those at the ends of its edges
(`Dot.Block.inner`). With these and what they show in turn one gets all the blocks of a document
(`Dot.Block.blocks`).

A block is laid out from the sources of its graph, one edge line for each of their links
(`Graph.Laid`). Every block at any depth is the block of a graph that is part of the one that is
written (`Graph.exists_graph_of_mem_blocks`).
-/

namespace DotDoc

open Dot (Block Edge Endpoint)

/-! ## The blocks of a document -/

namespace Dot

/-- The block that an end of an edge shows, if any. -/
def Endpoint.block? : Endpoint → Option Block
  | point .. => none
  | block b => some b

/-- The name of the place that an end of an edge shows, if any. -/
def Endpoint.name? : Endpoint → Option Label
  | point name .. => some name
  | block _ => none

/-- The blocks at the ends of an edge. -/
def Edge.inner (e : Edge) : List Block := e.source.block?.toList ++ e.target.block?.toList

/-- The blocks that a block shows itself: those that stand alone, and those at the ends of edges. -/
def Block.inner (b : Block) : List Block := b.alone ++ b.edges.flatMap Edge.inner

theorem Endpoint.sizeOf_block {p : Endpoint} {c : Block} (h : c ∈ p.block?.toList) :
    sizeOf c < sizeOf p := by
  cases p with
  | point name record compass => exact absurd h List.not_mem_nil
  | block b =>
      obtain rfl := List.mem_singleton.1 h
      simp

theorem Edge.sizeOf_inner {e : Edge} {c : Block} (h : c ∈ e.inner) : sizeOf c < sizeOf e := by
  obtain ⟨origin, source, target, attrs⟩ := e
  rcases List.mem_append.1 h with h | h
  · have := Endpoint.sizeOf_block h
    simp at this ⊢
    omega
  · have := Endpoint.sizeOf_block h
    simp at this ⊢
    omega

theorem Block.sizeOf_inner {b c : Block} (h : c ∈ b.inner) : sizeOf c < sizeOf b := by
  cases b
  rcases List.mem_append.1 h with h | h
  · have := List.sizeOf_lt_of_mem h
    simp at this ⊢
    omega
  · obtain ⟨e, he, hc⟩ := List.mem_flatMap.1 h
    have h1 := List.sizeOf_lt_of_mem he
    have h2 := Edge.sizeOf_inner hc
    simp at h1 ⊢
    omega

/-- The block itself and all that it shows at any depth, as often as it is shown. -/
def Block.blocks (b : Block) : List Block := b :: b.inner.attach.flatMap fun c => c.1.blocks
termination_by sizeOf b
decreasing_by exact Block.sizeOf_inner c.2

theorem Block.blocks_eq (b : Block) : b.blocks = b :: b.inner.flatMap blocks := by
  rw [blocks, List.flatMap_subtype (g := blocks) fun _ _ => rfl, List.unattach_attach]

/-- All edge lines at any depth. -/
def Block.allEdges (b : Block) : List Edge := b.blocks.flatMap Block.edges

end Dot

variable {ρ : Type}

/-! ## Laying out a block -/

theorem forall₂_of_mapM {α β ε : Type} {f : α → Except ε β} {xs : List α} {ys : List β}
    (h : xs.mapM f = .ok ys) : List.Forall₂ (fun x y => f x = .ok y) xs ys := by
  induction xs generalizing ys with
  | nil =>
      cases h
      exact .nil
  | cons x rest ih =>
      rw [List.mapM_cons] at h
      cases hx : f x with
      | error e =>
          rw [hx] at h
          cases h
      | ok y =>
          cases hr : rest.mapM f with
          | error e =>
              rw [hx, hr] at h
              cases h
          | ok zs =>
              rw [hx, hr] at h
              cases h
              exact .cons hx (ih hr)

theorem exists_of_forall₂_right {α β : Type} {R : α → β → Prop} {xs : List α} {ys : List β}
    (h : List.Forall₂ R xs ys) {y : β} (hy : y ∈ ys) : ∃ x ∈ xs, R x y := by
  induction h with
  | nil => exact absurd hy List.not_mem_nil
  | @cons a b as bs hab _ ih =>
      rcases List.mem_cons.1 hy with rfl | hy
      · exact ⟨a, List.mem_cons_self, hab⟩
      · obtain ⟨x, hx, hxy⟩ := ih hy
        exact ⟨x, List.mem_cons_of_mem a hx, hxy⟩

theorem exists_of_forall₂_left {α β : Type} {R : α → β → Prop} {xs : List α} {ys : List β}
    (h : List.Forall₂ R xs ys) {x : α} (hx : x ∈ xs) : ∃ y ∈ ys, R x y :=
  exists_of_forall₂_right h.flip hx

theorem countP_forall₂ {α β : Type} {R : α → β → Prop} {p : α → Bool} {q : β → Bool}
    (hpq : ∀ x y, R x y → p x = q y) {xs : List α} {ys : List β} (h : List.Forall₂ R xs ys) :
    xs.countP p = ys.countP q := by
  induction h with
  | nil => rfl
  | cons hxy _ ih => rw [List.countP_cons, List.countP_cons, ih, hpq _ _ hxy]

/-- The line shows a link of a source, from the end at the source to the end at its target. -/
structure Dot.Edge.Shows (x : Source ρ × Link ρ) (e : Edge) : Prop where
  origin : e.origin = x.2.ident
  source : x.1.endpoint x.2 = .ok e.source
  target : x.2.target.endpoint = .ok e.target
  attrs : e.attrs = x.2.attrs.written

theorem Dot.Edge.shows_of_ofEnds {x : Source ρ × Link ρ} {e : Edge}
    (h : Edge.ofEnds x.2 (x.1.endpoint x.2) x.2.target.endpoint = .ok e) : e.Shows x := by
  unfold Edge.ofEnds at h
  cases hs : x.1.endpoint x.2 with
  | error u =>
      rw [hs] at h
      cases h
  | ok p =>
      cases ht : x.2.target.endpoint with
      | error u =>
          rw [hs, ht] at h
          cases h
      | ok q =>
          rw [hs, ht] at h
          cases h
          exact ⟨rfl, hs, ht, rfl⟩

namespace Graph

/-- The block is laid out for the graph from these sources. -/
structure Laid (g : Graph ρ) (ss : List (Source ρ)) (b : Block) : Prop where
  sources : g.sources = .ok ss
  origin : b.origin = g.ident
  nodes : b.nodes = (g.statedNodes ss).map fun n => ⟨n.name, n.attrs.written⟩
  alone : List.Forall₂ (fun h c => h.block = .ok c) (Source.aloneGraphs ss) b.alone
  edges : List.Forall₂ (fun x e => e.Shows x) (Source.edges ss) b.edges

/-- The block of a graph is made of its parts. -/
theorem parts_of_block {g : Graph ρ} {b : Block} (h : g.block = .ok b) :
    ∃ ss, g.Laid ss b ∧ b = g.blockOfParts ss b.alone b.edges := by
  rw [block_eq] at h
  cases hs : g.sources with
  | error u =>
      rw [hs] at h
      cases h
  | ok ss =>
      rw [hs] at h
      -- the blocks that stand alone come first, then the edges, and each part may fail
      change (do
        let alone ← (Source.aloneGraphs ss).mapM Graph.block
        let edges ← (Source.edges ss).mapM fun e : Source ρ × Link ρ =>
          Edge.ofEnds e.2 (e.1.endpoint e.2) e.2.target.endpoint
        return g.blockOfParts ss alone edges) = _ at h
      cases ha : (Source.aloneGraphs ss).mapM Graph.block with
      | error u =>
          rw [ha] at h
          cases h
      | ok alone =>
          rw [ha] at h
          cases he : (Source.edges ss).mapM fun e : Source ρ × Link ρ =>
              Edge.ofEnds e.2 (e.1.endpoint e.2) e.2.target.endpoint with
          | error u =>
              rw [he] at h
              cases h
          | ok edges =>
              rw [he] at h
              cases h
              exact ⟨ss, ⟨hs, rfl, rfl, forall₂_of_mapM ha,
                (forall₂_of_mapM he).imp fun _ _ hx => Edge.shows_of_ofEnds hx⟩, rfl⟩

theorem laid_of_block {g : Graph ρ} {b : Block} (h : g.block = .ok b) : ∃ ss, g.Laid ss b := by
  obtain ⟨ss, hlaid, -⟩ := parts_of_block h
  exact ⟨ss, hlaid⟩

variable {g : Graph ρ} {ss : List (Source ρ)} {b : Block}

/-! ## Where sources and links of a block come from -/

/-- A link of a collected source is a link of a visited source of its key. -/
theorem exists_visit_of_link (h : g.sources = .ok ss) {s : Source ρ} (hs : s ∈ ss) {l : Link ρ}
    (hl : l ∈ s.links) : ∃ v ∈ g.visits, v.key = s.key ∧ l ∈ v.links := by
  cases s with
  | graph k => exact ⟨.graph k, (graph_mem_sources h).1 hs, rfl, hl⟩
  | node m =>
      have hl' : l ∈ m.links := hl
      rw [links_of_node_mem_sources h hs] at hl'
      obtain ⟨n, hn, hln⟩ := Node.mem_of_mem_contributed hl'
      obtain ⟨hv, hname⟩ := mem_nodesNamed.1 hn
      exact ⟨.node n, hv, congrArg SourceKey.node hname, hln⟩

/-- What a link of a collected source leads to is reached. -/
theorem reached_of_link (h : g.sources = .ok ss) {s t : Source ρ} (hs : s ∈ ss) {l : Link ρ}
    (hl : l ∈ s.links) (ht : l.target.anchor? = some (.source t)) : g.Reached t := by
  obtain ⟨v, hv, -, hlv⟩ := exists_visit_of_link h hs hl
  exact (reached_of_mem_visits hv).linked ⟨l, hlv, ht⟩

theorem mem_aloneGraphs {h : Graph ρ} (hh : h ∈ Source.aloneGraphs ss) : .graph h ∈ ss := by
  obtain ⟨s, hs, hsome⟩ := List.mem_filterMap.1 (List.mem_filter.1 hh).1
  cases s with
  | node n => cases hsome
  | graph k =>
      cases hsome
      exact hs

end Graph

/-! ## What an end shows -/

/-- An end at a port shows the name that it was made for. -/
theorem Dot.Endpoint.name_of_ofPort {name : Label} {p : Port ρ} {q : Endpoint}
    (h : Endpoint.ofPort name p = .ok q) : q.name? = some name ∧ q.block? = none := by
  unfold Endpoint.ofPort at h
  cases hr : p.record.written with
  | error u =>
      rw [hr] at h
      cases h
  | ok r =>
      rw [hr] at h
      cases h
      exact ⟨rfl, rfl⟩

/-- An end at a nested block shows the block of the graph. -/
theorem Graph.eq_block_of_map {h : Graph ρ} {q : Endpoint} (hq : h.block.map .block = .ok q) :
    ∃ c, h.block = .ok c ∧ q = .block c := by
  cases hb : h.block with
  | error u =>
      rw [hb] at hq
      cases hq
  | ok c =>
      rw [hb] at hq
      cases hq
      exact ⟨c, rfl, rfl⟩

/-- An end at an endpoint shows the name of what the endpoint is anchored at. -/
theorem Dot.Endpoint.name_of_ofPoint {p : NodePoint ρ} {q : Endpoint}
    (h : Endpoint.ofPoint p = .ok q) :
    ∃ s : Source ρ, p.anchor = .source s ∧ q.name? = some s.name ∧ q.block? = none := by
  obtain ⟨i, anchor, place⟩ := p
  cases anchor with
  | foreign v => cases h
  | source s =>
      cases place with
      | foreign v => cases h
      | port r => exact ⟨s, rfl, Endpoint.name_of_ofPort h⟩

theorem Source.block_of_endpoint {s : Source ρ} {l : Link ρ} {q : Endpoint} {c : Block}
    (hq : s.endpoint l = .ok q) (hc : q.block? = some c) :
    ∃ h, s = .graph h ∧ h.block = .ok c := by
  cases s with
  | node n =>
      rw [(Endpoint.name_of_ofPort hq).2] at hc
      cases hc
  | graph h =>
      obtain ⟨d, hd, rfl⟩ := Graph.eq_block_of_map hq
      cases hc
      exact ⟨h, rfl, hd⟩

theorem Target.block_of_endpoint {t : Target ρ} {q : Endpoint} {c : Block}
    (hq : t.endpoint = .ok q) (hc : q.block? = some c) :
    ∃ h, t = .graph h ∧ h.block = .ok c := by
  cases t with
  | point p =>
      obtain ⟨s, -, -, hnone⟩ := Endpoint.name_of_ofPoint hq
      rw [hnone] at hc
      cases hc
  | graph h =>
      obtain ⟨d, hd, rfl⟩ := Graph.eq_block_of_map hq
      cases hc
      exact ⟨h, rfl, hd⟩
  | foreign t => cases hq

namespace Graph

variable {g : Graph ρ} {ss : List (Source ρ)} {b : Block}

/-- A block that is shown is the block of a graph that is reached. -/
theorem Laid.exists_graph_of_mem_inner (h : g.Laid ss b) {c : Block} (hc : c ∈ b.inner) :
    ∃ k, g.Reached (.graph k) ∧ k.block = .ok c := by
  -- a block stands alone or is shown at one of the two ends of an edge
  rcases List.mem_append.1 hc with hc | hc
  · obtain ⟨k, hk, hkc⟩ := exists_of_forall₂_right h.alone hc
    exact ⟨k, reached_of_mem_visits ((graph_mem_sources h.sources).1 (mem_aloneGraphs hk)), hkc⟩
  · obtain ⟨e, he, hce⟩ := List.mem_flatMap.1 hc
    obtain ⟨x, hx, hshows⟩ := exists_of_forall₂_right h.edges he
    obtain ⟨hs, hl⟩ := Source.mem_edges hx
    rcases List.mem_append.1 hce with hce | hce
    · obtain ⟨k, hk, hkc⟩ := Source.block_of_endpoint hshows.source (Option.mem_toList.1 hce)
      rw [hk] at hs
      exact ⟨k, reached_of_mem_visits ((graph_mem_sources h.sources).1 hs), hkc⟩
    · obtain ⟨k, hk, hkc⟩ := Target.block_of_endpoint hshows.target (Option.mem_toList.1 hce)
      exact ⟨k, reached_of_link h.sources hs hl (by rw [hk]; rfl), hkc⟩

/-- **Every block of a document is the block of a graph that is part of the document's graph.** -/
theorem exists_graph_of_mem_blocks {g : Graph ρ} {b : Block} (h : g.block = .ok b) {c : Block}
    (hc : c ∈ b.blocks) : ∃ k, g.Holds (.graph k) ∧ k.block = .ok c := by
  rw [Block.blocks_eq] at hc
  rcases List.mem_cons.1 hc with rfl | hc
  · exact ⟨g, g.holds_self, h⟩
  · obtain ⟨d, hd, hcd⟩ := List.mem_flatMap.1 hc
    obtain ⟨ss, hlaid⟩ := laid_of_block h
    obtain ⟨k, hk, hkd⟩ := hlaid.exists_graph_of_mem_inner hd
    obtain ⟨k', hk', hkc⟩ := exists_graph_of_mem_blocks hkd hcd
    exact ⟨k', hk.holds.trans hk', hkc⟩
termination_by sizeOf b
decreasing_by exact Block.sizeOf_inner hd

end Graph

end DotDoc
