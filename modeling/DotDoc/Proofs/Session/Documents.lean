import DotDoc.Proofs.Dot.Nested
import DotDoc.Proofs.Dot.SharedLinks
import DotDoc.Proofs.Dot.StatementOrder
import DotDoc.Proofs.Dot.Unambiguous
import DotDoc.Proofs.Session.Built

set_option autoImplicit false

/-!
# Documents of built graphs

What the document of a graph shows, for every graph that a session builds and that can be written,
and for each of its blocks at any depth.

A block shows all that its graph reaches, up to graphs that only endpoints lead to
(`Graph.Built.blocks_covered`, `not_all_graphs_shown`). Its edge lines are the links that its graph
reaches (`Graph.Built.blocks_edgesWritten`). A shared link is written once for each block that
reaches it, which may be several times (`Graph.Built.shared_link_lines`,
`not_all_shared_links_once`). Its node statements stand in the order of first visits, which is not
always the order of declaration (`Graph.Built.blocks_statementsOrdered`,
`not_all_statements_in_declared_order`).

All this is stated of the blocks of a document. Each of them stands in the text, with its parts in
order (`Graph.parts_of_document`). The text of a legible graph, built or not, determines what shows
of its document (`Graph.bare_eq_of_serialize`).
-/

namespace DotDoc

open Dot (Document Block Edge NodeStatement)

/-- The graph that a session stores under the name can be written, and it and its document have the
property. -/
def sessionWrites (steps : List Step) (name : String) (p : Graph Value → Document → Bool) : Bool :=
  match ((runAll steps).run Flow.initial).2.names.get? name with
  | some (.graph g) =>
    match g.document with
    | .ok doc => p g doc
    | .error _ => false
  | _ => false

theorem exists_of_sessionWrites {steps : List Step} {name : String}
    {p : Graph Value → Document → Bool} (h : sessionWrites steps name p = true) :
    ∃ g doc, g.Built ∧ g.document = .ok doc ∧ p g doc = true := by
  unfold sessionWrites at h
  split at h
  · rename_i g hg
    split at h
    · rename_i doc hdoc
      exact ⟨g, doc, ⟨steps, name, hg⟩, hdoc, h⟩
    · cases h
  · cases h

/-- The block of a document is the block of its graph. -/
theorem Graph.block_of_document {g : Graph Value} {doc : Document} (h : g.document = .ok doc) :
    g.block = .ok doc.block := by
  unfold Graph.document at h
  cases hb : g.block with
  | error e =>
      rw [hb] at h
      cases h
  | ok b =>
      rw [hb] at h
      cases h
      rfl

/-! ## All that is reached -/

/-- **Every block of the document shows all that its graph reaches.** Only a graph that takes part
in edges by endpoints alone is not written there. -/
theorem Graph.Built.blocks_covered {g : Graph Value} {doc : Document} (hg : g.Built)
    (hdoc : g.document = .ok doc) :
    ∀ c ∈ doc.block.blocks, ∃ k ss, g.Holds (.graph k) ∧ k.block = .ok c ∧ k.sources = .ok ss ∧
      k.Covered ss c := by
  intro c hc
  obtain ⟨k, hk, hkc⟩ := Graph.exists_graph_of_mem_blocks (Graph.block_of_document hdoc) hc
  obtain ⟨ss, hlaid⟩ := Graph.laid_of_block hkc
  exact ⟨k, ss, hk, hkc, hlaid.sources, hlaid.covered (hg.coherent.of_holds hk)⟩

/-- Two versions of one node share a link, one of them links to a subgraph as well, and another
subgraph stands alone. -/
def versionsSession : List Step := [
  .call (.node (some (.text "b")) []) (some "b"),
  .call (.linkTo (.name "b") none) (some "l"),
  .call (.node (some (.text "a")) []) (some "a"),
  .call (.link "a" [.name "l"]) (some "a1"),
  .call (.graph (some (.text "h")) []) (some "h"),
  .call (.addNodes "h" [.name "b"]) (some "h"),
  .call (.link "a" [.name "l", .name "h", .name "b"]) (some "a2"),
  .call (.node (some (.text "c")) []) (some "c"),
  .call (.link "c" [.name "a2"]) (some "c"),
  .call (.graph (some (.text "s")) []) (some "s"),
  .call (.addNodes "s" [.name "c"]) (some "s"),
  .call (.graph (some (.text "g")) []) (some "g"),
  .call (.addNodes "g" [.name "a1", .name "c"]) (some "g"),
  .call (.addGraphs "g" [.name "s"]) (some "g")]

theorem versions_written :
    sessionWrites versionsSession "g" (fun _ doc => doc.block.blocks.length == 4) = true := by
  decide +kernel

theorem blocks_covered_versions : ∃ (g : Graph Value) (doc : Document), g.Built ∧
    g.document = .ok doc ∧ doc.block.blocks.length = 4 ∧
    ∀ c ∈ doc.block.blocks, ∃ k ss, g.Holds (.graph k) ∧ k.block = .ok c ∧ k.sources = .ok ss ∧
      k.Covered ss c := by
  obtain ⟨g, doc, hg, hdoc, hp⟩ := exists_of_sessionWrites versions_written
  exact ⟨g, doc, hg, hdoc, beq_iff_eq.1 hp, hg.blocks_covered hdoc⟩

/-- A node links to an endpoint that is made from a graph. -/
def pointedSession : List Step := [
  .call (.graph (some (.text "h")) []) (some "h"),
  .call (.point (.name "h") none) (some "p"),
  .call (.node (some (.text "a")) []) (some "a"),
  .call (.link "a" [.name "p"]) (some "a"),
  .call (.graph (some (.text "g")) []) (some "g"),
  .call (.addNodes "g" [.name "a"]) (some "g")]

/-- A reached graph that an endpoint is made from may not be written at all. -/
theorem not_all_graphs_shown : ¬ ∀ (g : Graph Value) (doc : Document), g.Built →
    g.document = .ok doc → ∀ k, g.Reached (.graph k) →
      doc.block.inner.countP (fun c => c.origin == k.ident) ≠ 0 := by
  intro hall
  have hwritten : sessionWrites pointedSession "g" (fun g doc => g.visits.any fun s =>
      s.isGraph && doc.block.inner.countP (fun c => c.origin == s.ident) == 0) = true := by
    decide +kernel
  obtain ⟨g, doc, hg, hdoc, hp⟩ := exists_of_sessionWrites hwritten
  obtain ⟨s, hs, hs'⟩ := List.any_eq_true.1 hp
  obtain ⟨hgraph, hcount⟩ := Bool.and_eq_true_iff.1 hs'
  cases s with
  | node n => cases hgraph
  | graph k => exact hall g doc hg hdoc k (Graph.reached_of_mem_visits hs) (beq_iff_eq.1 hcount)

/-! ## Edge lines -/

/-- **The edge lines of every block of the document are the links that its graph reaches.** -/
theorem Graph.Built.blocks_edgesWritten {g : Graph Value} {doc : Document} (hg : g.Built)
    (hdoc : g.document = .ok doc) :
    ∀ c ∈ doc.block.blocks, ∃ k ss, g.Holds (.graph k) ∧ k.block = .ok c ∧
      k.EdgesWritten ss c := by
  intro c hc
  obtain ⟨k, hk, hkc⟩ := Graph.exists_graph_of_mem_blocks (Graph.block_of_document hdoc) hc
  obtain ⟨ss, hlaid⟩ := Graph.laid_of_block hkc
  exact ⟨k, ss, hk, hkc, hlaid.edgesWritten (hg.coherent.of_holds hk)⟩

theorem blocks_edgesWritten_versions : ∃ (g : Graph Value) (doc : Document), g.Built ∧
    g.document = .ok doc ∧ doc.block.blocks.length = 4 ∧
    ∀ c ∈ doc.block.blocks, ∃ k ss, g.Holds (.graph k) ∧ k.block = .ok c ∧
      k.EdgesWritten ss c := by
  obtain ⟨g, doc, hg, hdoc, hp⟩ := exists_of_sessionWrites versions_written
  exact ⟨g, doc, hg, hdoc, beq_iff_eq.1 hp, hg.blocks_edgesWritten hdoc⟩

/-! ## Shared links -/

/-- **A link that only nodes of one name hold, each once, is written once for each block whose graph
reaches it.** The blocks are those of the graph and of all graphs declared in it at any depth, no
graph forms an end of an edge, and no graph is declared in two places. -/
theorem Graph.Built.shared_link_lines {g : Graph Value} {doc : Document} (hg : g.Built)
    (hdoc : g.document = .ok doc) (hends : g.NoGraphEnds) (hplaces : (g.family.map ident).Nodup)
    {s : Source Value} {l : Link Value} {name : Label} (hs : g.Inside s) (hl : l ∈ s.links)
    (hheld : g.HeldOnce l.ident name) :
    doc.block.allEdges.countP (fun e => e.origin == l.ident) =
        g.family.countP (fun k => k.reachesLink l.ident) ∧
      (∀ k ∈ g.family, k.reachesLink l.ident = true ↔ ∃ t, k.Reached t ∧ l ∈ t.links) ∧
      doc.block.allEdges.countP (fun e => e.origin == l.ident) ≠ 0 ∧
      ∀ e ∈ doc.block.allEdges, e.origin = l.ident →
        ∃ n : Node Value, n.name = name ∧ l ∈ n.links ∧ e.Shows (.node n, l) := by
  have hcoh := hg.coherent
  have hblock := Graph.block_of_document hdoc
  have hcount := countP_allEdges hcoh hends hplaces hheld hblock
  refine ⟨hcount, ?_, ?_, ?_⟩
  · intro k hk
    exact reachesLink_iff_mem hcoh hk hs hl
  · -- what is found inside is reached by some graph of the family
    rw [hcount, ← Nat.pos_iff_ne_zero, List.countP_pos_iff]
    obtain ⟨k, hk, hks⟩ := hends.reached_of_inside hs
    exact ⟨k, hk, (reachesLink_iff_mem hcoh hk hs hl).2 ⟨s, hks, hl⟩⟩
  · intro e he hi
    exact hends.shows_of_origin hcoh hblock hs hl hheld he hi

/-- A node with a link is declared in a graph and in its subgraph. -/
def nestedSession : List Step := [
  .call (.node (some (.text "b")) []) (some "b"),
  .call (.node (some (.text "a")) []) (some "a"),
  .call (.link "a" [.name "b"]) (some "a"),
  .call (.graph (some (.text "s")) []) (some "s"),
  .call (.addNodes "s" [.name "a"]) (some "s"),
  .call (.graph (some (.text "g")) []) (some "g"),
  .call (.addNodes "g" [.name "a"]) (some "g"),
  .call (.addGraphs "g" [.name "s"]) (some "g")]

/-- The link of the node is written in both blocks. -/
theorem exists_shared_twice : ∃ (g : Graph Value) (doc : Document) (s : Source Value)
    (l : Link Value), g.Built ∧ g.document = .ok doc ∧ g.NoGraphEnds ∧
      (g.family.map Graph.ident).Nodup ∧ g.Inside s ∧ l ∈ s.links ∧
      g.HeldOnce l.ident ⟨"a", false⟩ ∧
      doc.block.allEdges.countP (fun e => e.origin == l.ident) = 2 := by
  have hwritten : sessionWrites nestedSession "g" (fun g doc => decide (g.NoGraphEnds ∧
      (g.family.map Graph.ident).Nodup ∧ ∃ s ∈ g.insideAll, ∃ l ∈ s.links,
        g.HeldOnce l.ident ⟨"a", false⟩ ∧
        doc.block.allEdges.countP (fun e => e.origin == l.ident) = 2)) = true := by
    decide +kernel
  obtain ⟨g, doc, hg, hdoc, hp⟩ := exists_of_sessionWrites hwritten
  obtain ⟨hends, hplaces, s, hs, l, hl, hheld, hcount⟩ := of_decide_eq_true hp
  exact ⟨g, doc, s, l, hg, hdoc, hends, hplaces, Graph.mem_insideAll.1 hs, hl, hheld, hcount⟩

theorem shared_link_lines_nested : ∃ (g : Graph Value) (doc : Document) (s : Source Value)
    (l : Link Value), (g.Built ∧ g.document = .ok doc ∧ g.NoGraphEnds ∧
      (g.family.map Graph.ident).Nodup ∧ g.Inside s ∧ l ∈ s.links ∧
      g.HeldOnce l.ident ⟨"a", false⟩) ∧ g.family.countP (fun k => k.reachesLink l.ident) = 2 := by
  obtain ⟨g, doc, s, l, hg, hdoc, hends, hplaces, hs, hl, hheld, hcount⟩ := exists_shared_twice
  have h := hg.shared_link_lines hdoc hends hplaces hs hl hheld
  exact ⟨g, doc, s, l, ⟨hg, hdoc, hends, hplaces, hs, hl, hheld⟩, h.1.symm.trans hcount⟩

/-- A shared link may be written more than once. -/
theorem not_all_shared_links_once : ¬ ∀ (g : Graph Value) (doc : Document), g.Built →
    g.document = .ok doc → g.NoGraphEnds → (g.family.map Graph.ident).Nodup →
    ∀ (s : Source Value) (l : Link Value) (name : Label), g.Inside s → l ∈ s.links →
      g.HeldOnce l.ident name →
      doc.block.allEdges.countP (fun e => e.origin == l.ident) = 1 := by
  intro hall
  obtain ⟨g, doc, s, l, hg, hdoc, hends, hplaces, hs, hl, hheld, hcount⟩ := exists_shared_twice
  have hone := hall g doc hg hdoc hends hplaces s l _ hs hl hheld
  rw [hcount] at hone
  cases hone

/-! ## Order of node statements -/

/-- **The node statements of every block of the document stand in the order in which their names are
first visited.** -/
theorem Graph.Built.blocks_statementsOrdered {g : Graph Value} {doc : Document} (hg : g.Built)
    (hdoc : g.document = .ok doc) :
    ∀ c ∈ doc.block.blocks, ∃ k, g.Holds (.graph k) ∧ k.block = .ok c ∧
      k.StatementsOrdered c := by
  intro c hc
  obtain ⟨k, hk, hkc⟩ := Graph.exists_graph_of_mem_blocks (Graph.block_of_document hdoc) hc
  obtain ⟨ss, hlaid⟩ := Graph.laid_of_block hkc
  refine ⟨k, hk, hkc, hlaid.statementsOrdered ?_ ?_⟩
  · exact hg.coherent.of_holds hk
  · exact hg.indexed_of_holds hk

/-- The first of three nodes links to the last one. -/
def overtakingSession : List Step := [
  .call (.node (some (.text "c")) [("k", .text "1")]) (some "c"),
  .call (.node (some (.text "a")) []) (some "a"),
  .call (.link "a" [.name "c"]) (some "a"),
  .call (.node (some (.text "b")) [("k", .text "1")]) (some "b"),
  .call (.graph (some (.text "g")) []) (some "g"),
  .call (.addNodes "g" [.name "a", .name "b", .name "c"]) (some "g")]

theorem overtaking_written : sessionWrites overtakingSession "g" (fun g doc =>
    g.nodes.map Node.name == [⟨"a", false⟩, ⟨"b", false⟩, ⟨"c", false⟩] &&
      doc.block.nodes.map NodeStatement.name == [⟨"c", false⟩, ⟨"b", false⟩]) = true := by
  decide +kernel

theorem blocks_statementsOrdered_overtaking : ∃ (g : Graph Value) (doc : Document), g.Built ∧
    g.document = .ok doc ∧
    doc.block.nodes.map NodeStatement.name = [⟨"c", false⟩, ⟨"b", false⟩] ∧
    ∀ c ∈ doc.block.blocks, ∃ k, g.Holds (.graph k) ∧ k.block = .ok c ∧
      k.StatementsOrdered c := by
  obtain ⟨g, doc, hg, hdoc, hp⟩ := exists_of_sessionWrites overtaking_written
  obtain ⟨-, hnames⟩ := Bool.and_eq_true_iff.1 hp
  exact ⟨g, doc, hg, hdoc, beq_iff_eq.1 hnames, hg.blocks_statementsOrdered hdoc⟩

/-- The statements of two declared nodes need not stand in the order of declaration. -/
theorem not_all_statements_in_declared_order : ¬ ∀ (g : Graph Value) (doc : Document), g.Built →
    g.document = .ok doc → ∀ c ∈ doc.block.blocks, ∀ k, g.Holds (.graph k) → k.block = .ok c →
      ∀ n₁ n₂, StandsBefore k.nodes n₁ n₂ →
        n₁.name ∈ c.nodes.map NodeStatement.name → n₂.name ∈ c.nodes.map NodeStatement.name →
        StandsBefore (c.nodes.map NodeStatement.name) n₁.name n₂.name := by
  intro hall
  obtain ⟨g, doc, hg, hdoc, hp⟩ := exists_of_sessionWrites overtaking_written
  obtain ⟨hdecl, hstated⟩ := Bool.and_eq_true_iff.1 hp
  rw [beq_iff_eq] at hdecl hstated
  have hself : doc.block ∈ doc.block.blocks := by
    rw [Block.blocks_eq]
    exact List.mem_cons_self
  have h := hall g doc hg hdoc doc.block hself g .refl (Graph.block_of_document hdoc)
  rw [hstated] at h
  -- the nodes are taken apart by their names
  obtain ⟨na, rest, hnodes, ha, hrest⟩ := List.map_eq_cons_iff.1 hdecl
  obtain ⟨nb, rest', rfl, hb, hrest'⟩ := List.map_eq_cons_iff.1 hrest
  obtain ⟨nc, rest'', rfl, hc, hnil⟩ := List.map_eq_cons_iff.1 hrest'
  have hbc : StandsBefore g.nodes nb nc := by
    refine ⟨[na, nb], nc :: rest'', hnodes, by simp, ?_, by simp⟩
    simp only [List.mem_cons, List.not_mem_nil, or_false, not_or]
    constructor
    · rintro rfl
      simp [ha] at hc
    · rintro rfl
      simp [hb] at hc
  have hover := h nb nc hbc (by simp [hb]) (by simp [hc])
  rw [hb, hc] at hover
  refine hover.asymm ?_
  exact ⟨[⟨"c", false⟩], [⟨"b", false⟩], rfl, by simp, by simp, by simp⟩

/-! ## The text -/

/-- **Where a document can be laid out, its text can be written, and each of its blocks stands there
with its parts in order**: default attributes, its own attributes, node statements, blocks that
stand alone, and edge lines, which all have the operator of the document. -/
theorem Graph.parts_of_document {g : Graph Value} {doc : Document} (hdoc : g.document = .ok doc)
    (d : Dot.Dialect) : ∃ text, g.serialize d = .ok text ∧ ∀ c ∈ doc.block.blocks,
      "\x7b\n".toList ++ (c.parts d (d.edgeOp doc.directed)).flatten ++ ['\x7d'] <:+:
        text.toList := by
  refine ⟨doc.text d, ?_, fun c hc => doc.parts_within d hc⟩
  rw [Graph.serialize, hdoc]
  rfl

theorem Graph.document_of_serialize {g : Graph Value} {d : Dot.Dialect} {text : String}
    (h : g.serialize d = .ok text) : ∃ doc, g.document = .ok doc ∧ doc.text d = text := by
  unfold Graph.serialize at h
  cases hdoc : g.document with
  | error e =>
      rw [hdoc] at h
      cases h
  | ok doc =>
      rw [hdoc] at h
      exact ⟨doc, rfl, Except.ok.inj h⟩

/-- **Legible graphs are written with the same text only if the same shows of their documents.** -/
theorem Graph.bare_eq_of_serialize {g h : Graph Value} {text : String} (hg : g.Legible)
    (hh : h.Legible) (hgt : g.serialize .standard = .ok text)
    (hht : h.serialize .standard = .ok text) :
    ∃ doc doc', g.document = .ok doc ∧ h.document = .ok doc' ∧ doc.bare = doc'.bare := by
  obtain ⟨doc, hdoc, htext⟩ := Graph.document_of_serialize hgt
  obtain ⟨doc', hdoc', htext'⟩ := Graph.document_of_serialize hht
  have hlegible := hg.block (Graph.block_of_document hdoc)
  have hlegible' := hh.block (Graph.block_of_document hdoc')
  refine ⟨doc, doc', hdoc, hdoc', (Document.text_eq_iff hlegible hlegible').1 ?_⟩
  rw [htext, htext']

/-- A node with a quote in its name links to a place on a node with a markup attribute. -/
def plainSession : List Step := [
  .call (.node (some (.text "b")) [("k", .markup (.text "<i>")), ("l", .text "2")]) (some "b"),
  .call (.node (some (.text "a\"")) []) (some "a"),
  .call (.nodePort "b" (some (.text "r")) (some (.text "n"))) (some "p"),
  .call (.link "a" [.name "p"]) (some "a"),
  .call (.graph (some (.text "")) []) (some "s"),
  .call (.graph (some (.text "g")) []) (some "g"),
  .call (.addNodes "g" [.name "a"]) (some "g"),
  .call (.addGraphs "g" [.name "s"]) (some "g")]

/-- The same in another order, with the target in two versions. -/
def mergedSession : List Step := [
  .call (.graph none []) (some "s"),
  .call (.node (some (.text "b")) [("k", .markup (.text "<i>"))]) (some "b"),
  .call (.node (some (.text "b")) [("l", .int 2)]) (some "c"),
  .call (.nodePort "b" (some (.text "r")) (some (.text "N"))) (some "p"),
  .call (.node (some (.text "a\"")) []) (some "a"),
  .call (.link "a" [.name "p"]) (some "a"),
  .call (.graph (some (.text "g")) []) (some "g"),
  .call (.addGraphs "g" [.name "s"]) (some "g"),
  .call (.addNodes "g" [.name "a", .name "c"]) (some "g")]

/-- What both sessions write for their graph. -/
def sharedText : String :=
  "graph \"g\" \x7b\n\"b\" [\"k\"=<<i>>,\"l\"=\"2\"]\n\x7b\n\x7d\n\"a\\\"\" -- \"b\":\"r\":n\n\x7d"

/-- The graph is legible, and this is its text. -/
def legiblyWritten (g : Graph Value) (doc : Document) : Bool :=
  (Source.graph g).within.all (fun s => s.labels.all fun l => decide l.Legible) &&
    doc.text .standard == sharedText

theorem legible_of_legiblyWritten {g : Graph Value} {doc : Document} (hdoc : g.document = .ok doc)
    (h : legiblyWritten g doc = true) :
    g.Legible ∧ g.serialize .standard = .ok sharedText := by
  obtain ⟨hlegible, htext⟩ := Bool.and_eq_true_iff.1 h
  constructor
  · intro s hs l hl
    have hall := List.all_eq_true.1 hlegible s (Source.mem_within.2 hs)
    exact of_decide_eq_true (List.all_eq_true.1 hall l hl)
  · rw [Graph.serialize, hdoc, ← beq_iff_eq.1 htext]
    rfl

theorem bare_eq_of_serialize_merged : ∃ (g h : Graph Value) (doc doc' : Document),
    g.Legible ∧ h.Legible ∧ g.serialize .standard = .ok sharedText ∧
      h.serialize .standard = .ok sharedText ∧ g.visits.length ≠ h.visits.length ∧
      g.document = .ok doc ∧ h.document = .ok doc' ∧ doc.bare = doc'.bare := by
  have hplain : sessionWrites plainSession "g" (fun g doc => legiblyWritten g doc &&
      g.visits.length == 3) = true := by
    decide +kernel
  have hmerged : sessionWrites mergedSession "g" (fun g doc => legiblyWritten g doc &&
      g.visits.length == 4) = true := by
    decide +kernel
  obtain ⟨g, doc, -, hdoc, hp⟩ := exists_of_sessionWrites hplain
  obtain ⟨h, doc', -, hdoc', hp'⟩ := exists_of_sessionWrites hmerged
  obtain ⟨hw, hlen⟩ := Bool.and_eq_true_iff.1 hp
  obtain ⟨hw', hlen'⟩ := Bool.and_eq_true_iff.1 hp'
  obtain ⟨hg, hgt⟩ := legible_of_legiblyWritten hdoc hw
  obtain ⟨hh, hht⟩ := legible_of_legiblyWritten hdoc' hw'
  have hne : g.visits.length ≠ h.visits.length := by
    rw [beq_iff_eq.1 hlen, beq_iff_eq.1 hlen']
    decide
  obtain ⟨d, d', hd, hd', hbare⟩ := Graph.bare_eq_of_serialize hg hh hgt hht
  exact ⟨g, h, d, d', hg, hh, hgt, hht, hne, hd, hd', hbare⟩

end DotDoc
