import DotDoc.Proofs.Dot.Lines

set_option autoImplicit false

/-!
# Legible graphs

A graph is legible if all the labels that it holds are: names, attributes and record names, at any
depth. All labels that its document shows are among them, also those that come about by merging
(`Graph.Legible.block`). So the text of a legible graph determines what shows of its document.
-/

namespace DotDoc

open Dot (AttrList Block Document Edge Endpoint)

variable {ρ : Type}

/-! ## Labels of sources -/

/-- The keys and values of a table. -/
def AttrTable.labels (t : AttrTable) : List Label := AttrList.labels t.written

/-- The label that a record name is written as, if it can be written. -/
def RecordName.labels : RecordName ρ → List Label
  | absent => []
  | text s => [⟨s, false⟩]
  | label l => [l]
  | foreign _ => []

/-- The record name at a target. -/
def Target.labels : Target ρ → List Label
  | point p =>
    match p.place with
    | .port q => q.record.labels
    | .foreign _ => []
  | graph _ => []
  | foreign _ => []

/-- The labels of a link itself. -/
def Link.labels (l : Link ρ) : List Label :=
  l.sourcePort.record.labels ++ (l.target.labels ++ l.attrs.labels)

/-- The labels of a source itself and of its links. -/
def Source.labels : Source ρ → List Label
  | node n => n.name :: (n.attrs.labels ++ n.links.flatMap Link.labels)
  | graph g =>
    g.name :: ([g.graphAttrs, g.nodeAttrs, g.linkAttrs, g.attrs].flatMap AttrTable.labels ++
      g.links.flatMap Link.labels)

theorem Source.name_mem_labels (s : Source ρ) : s.name ∈ s.labels := by
  cases s <;> exact List.mem_cons_self

theorem Source.link_labels {s : Source ρ} {l : Link ρ} (hl : l ∈ s.links) {t : Label}
    (ht : t ∈ l.labels) : t ∈ s.labels := by
  have hlinks : t ∈ s.links.flatMap Link.labels := List.mem_flatMap.2 ⟨l, hl, ht⟩
  cases s <;> exact List.mem_cons_of_mem _ (List.mem_append_right _ hlinks)

theorem AttrTable.mem_labels {t : AttrTable} {l : Label} :
    l ∈ t.labels ↔ ∃ e ∈ t.entries, l = ⟨e.1, false⟩ ∨ l = e.2.toLabel := by
  simp [AttrTable.labels, AttrTable.written, AttrList.labels]

/-- All labels that the graph holds are legible, at any depth. -/
def Graph.Legible (g : Graph ρ) : Prop := ∀ s, g.Holds s → ∀ l ∈ s.labels, l.Legible

/-! ## Labels of ends -/

theorem RecordName.labels_of_written {r : RecordName ρ} {o : Option Label}
    (h : r.written = .ok o) : o.toList = r.labels := by
  cases r with
  | foreign v => cases h
  | _ =>
      cases h
      rfl

theorem Dot.Endpoint.labels_of_ofPort {name : Label} {p : Port ρ} {q : Endpoint}
    (h : Endpoint.ofPort name p = .ok q) : q.labels = name :: p.record.labels := by
  unfold Endpoint.ofPort at h
  cases hr : p.record.written with
  | error u =>
      rw [hr] at h
      cases h
  | ok r =>
      rw [hr] at h
      cases h
      rw [← RecordName.labels_of_written hr]
      rfl

/-- An end at a source shows the name of the source and the record name of the link's port. -/
theorem Source.labels_of_endpoint {s : Source ρ} {l : Link ρ} {q : Endpoint}
    (hq : s.endpoint l = .ok q) {t : Label} (ht : t ∈ q.labels) :
    t = s.name ∨ t ∈ l.sourcePort.record.labels := by
  cases s with
  | node n =>
      rw [Endpoint.labels_of_ofPort hq] at ht
      exact List.mem_cons.1 ht
  | graph h =>
      obtain ⟨c, -, rfl⟩ := Graph.eq_block_of_map hq
      exact absurd ht List.not_mem_nil

/-- An end at a target shows the name of what the target is anchored at and its record name. -/
theorem Target.labels_of_endpoint {t : Target ρ} {q : Endpoint} (hq : t.endpoint = .ok q)
    {l : Label} (hl : l ∈ q.labels) :
    (∃ s, t.anchor? = some (.source s) ∧ l = s.name) ∨ l ∈ t.labels := by
  cases t with
  | point p =>
      obtain ⟨i, anchor, place⟩ := p
      cases anchor with
      | foreign v => cases hq
      | source s =>
          cases place with
          | foreign v => cases hq
          | port r =>
              have hport : Endpoint.ofPort s.name r = .ok q := hq
              rw [Endpoint.labels_of_ofPort hport] at hl
              exact (List.mem_cons.1 hl).imp (fun h => ⟨s, rfl, h⟩) id
  | graph h =>
      obtain ⟨c, -, rfl⟩ := Graph.eq_block_of_map hq
      exact absurd hl List.not_mem_nil
  | foreign f => cases hq

namespace Graph

variable {g : Graph ρ} {ss : List (Source ρ)} {b : Block}

/-! ## Legible blocks -/

theorem Legible.of_holds (hg : g.Legible) {k : Graph ρ} (hk : g.Holds (.graph k)) : k.Legible :=
  fun s hs => hg s (hk.trans hs)

theorem Legible.visit (hg : g.Legible) {v : Source ρ} (hv : v ∈ g.visits) :
    ∀ l ∈ v.labels, l.Legible :=
  hg v (reached_of_mem_visits hv).holds

/-- The name of a collected source is that of a visited one. -/
theorem exists_visit_of_name (h : g.sources = .ok ss) {s : Source ρ} (hs : s ∈ ss) :
    ∃ v ∈ g.visits, v.name = s.name := by
  cases s with
  | graph k => exact ⟨.graph k, (graph_mem_sources h).1 hs, rfl⟩
  | node n =>
      obtain ⟨v, hv, hk⟩ := exists_visit h hs
      cases v with
      | graph k => cases hk
      | node m => exact ⟨.node m, hv, SourceKey.node.inj hk⟩

theorem Legible.name (hg : g.Legible) (h : g.sources = .ok ss) {s : Source ρ} (hs : s ∈ ss) :
    s.name.Legible := by
  obtain ⟨v, hv, hname⟩ := exists_visit_of_name h hs
  exact hname ▸ hg.visit hv v.name v.name_mem_labels

theorem Legible.attr (hg : g.Legible) (h : g.sources = .ok ss) {n : Node ρ} (hn : .node n ∈ ss) :
    ∀ l ∈ n.attrs.labels, l.Legible := by
  intro l hl
  obtain ⟨e, he, hle⟩ := AttrTable.mem_labels.1 hl
  -- every entry of a merged table comes from a visited node
  obtain ⟨m, hm, hem⟩ := exists_node_of_attr h hn he
  apply hg.visit (mem_nodesNamed.1 hm).1
  exact List.mem_cons_of_mem _ (List.mem_append_left _ (AttrTable.mem_labels.2 ⟨e, hem, hle⟩))

theorem Legible.link (hg : g.Legible) (h : g.sources = .ok ss) {s : Source ρ} (hs : s ∈ ss)
    {l : Link ρ} (hl : l ∈ s.links) : ∀ t ∈ l.labels, t.Legible := by
  intro t ht
  obtain ⟨v, hv, -, hlv⟩ := exists_visit_of_link h hs hl
  exact hg.visit hv t (Source.link_labels hlv ht)

/-- The labels of an edge line of a legible graph. -/
theorem Legible.edge (hg : g.Legible) (h : g.Laid ss b) {e : Edge} (he : e ∈ b.edges) :
    ∀ l, l ∈ e.source.labels ∨ l ∈ e.target.labels ∨ l ∈ AttrList.labels e.attrs → l.Legible := by
  obtain ⟨⟨s, k⟩, hx, hshows⟩ := exists_of_forall₂_right h.edges he
  obtain ⟨hs, hk⟩ := Source.mem_edges hx
  have hlink := hg.link h.sources hs hk
  rintro l (hl | hl | hl)
  · rcases Source.labels_of_endpoint hshows.source hl with rfl | hl
    · exact hg.name h.sources hs
    · exact hlink l (List.mem_append_left _ hl)
  · rcases Target.labels_of_endpoint hshows.target hl with ⟨t, ht, rfl⟩ | hl
    · exact hg t (reached_of_link h.sources hs hk ht).holds t.name t.name_mem_labels
    · exact hlink l (List.mem_append_right _ (List.mem_append_left _ hl))
  · rw [hshows.attrs] at hl
    exact hlink l (List.mem_append_right _ (List.mem_append_right _ hl))

/-- A legible graph writes legible labels in its own block. -/
theorem Legible.labels (hg : g.Legible) (h : g.block = .ok b) : ∀ l ∈ b.labels, l.Legible := by
  obtain ⟨ss, hlaid, hparts⟩ := parts_of_block h
  have hself := hg (.graph g) g.holds_self
  intro l hl
  rw [Block.mem_labels] at hl
  rcases hl with rfl | ⟨attrs, hattrs, hl⟩ | ⟨n, hn, hl⟩ | ⟨e, he, hl⟩
  · rw [hparts]
    exact hself _ (Source.name_mem_labels _)
  · rw [hparts] at hattrs
    apply hself
    refine List.mem_cons_of_mem _ (List.mem_append_left _ ?_)
    obtain ⟨t, ht, rfl⟩ : ∃ t ∈ [g.graphAttrs, g.nodeAttrs, g.linkAttrs, g.attrs],
        t.written = attrs :=
      List.mem_map.1 hattrs
    exact List.mem_flatMap.2 ⟨t, ht, hl⟩
  · rw [hlaid.nodes] at hn
    obtain ⟨m, hm, rfl⟩ := List.mem_map.1 hn
    have hms : .node m ∈ ss := Source.mem_nodes.1 (List.mem_filter.1 hm).1
    rcases hl with rfl | hl
    · exact hg.name hlaid.sources hms
    · exact hg.attr hlaid.sources hms l hl
  · exact hg.edge hlaid he l hl

/-- **All labels of the document of a legible graph are legible.** -/
theorem Legible.block (hg : g.Legible) (h : g.block = .ok b) : b.Legible := by
  intro c hc
  obtain ⟨k, hk, hkc⟩ := exists_graph_of_mem_blocks h hc
  exact (hg.of_holds hk).labels hkc

end Graph

end DotDoc
