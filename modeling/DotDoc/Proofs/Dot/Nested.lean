import DotDoc.Proofs.Dot.SharedLinks
import DotDoc.Proofs.Dot.Twins

set_option autoImplicit false

/-!
# Nested blocks

A block that stands alone in another one, or at an end of one of its edges, is written in it as the
document of its own graph would be, but for the keywords in front and for the operator, which is
that of the whole document (`Graph.NestedAs`, `Graph.nestedAs_of_block`). This is so at every depth
(`Dot.Block.nested_within`), and the same operator stands in all edge lines
(`Dot.Block.line_within`). So every block stands in the text of the document with its parts in order
(`Dot.Document.parts_within`).
-/

namespace DotDoc

open Dot (Block Edge Endpoint Dialect Document)

namespace Dot

/-! ## Where nested blocks are written -/

variable (d : Dialect) (op : String)

/-- The blocks within a block at any depth, as often as they are shown. -/
def Block.nestedBlocks (b : Block) : List Block := b.inner.flatMap blocks

theorem Block.mem_blocks {b c : Block} : c ∈ b.blocks ↔ c = b ∨ c ∈ b.nestedBlocks := by
  rw [blocks_eq, List.mem_cons]
  rfl

theorem Endpoint.chars_of_block {p : Endpoint} {c : Block} (h : c ∈ p.block?.toList) :
    p.chars d op = c.nested d op := by
  cases p with
  | point name record compass => exact absurd h List.not_mem_nil
  | block b =>
      obtain rfl := List.mem_singleton.1 h
      rfl

/-- A block at an end of an edge is written there. -/
theorem Edge.nested_within {e : Edge} {c : Block} (h : c ∈ e.inner) :
    c.nested d op <:+: e.line d op := by
  rw [line_parts]
  rcases List.mem_append.1 h with h | h
  · rw [Endpoint.chars_of_block d op h, List.append_assoc, List.append_assoc, List.append_assoc]
    exact List.infix_append' [] _ _
  · rw [Endpoint.chars_of_block d op h]
    refine ⟨e.source.chars d op ++ ' ' :: op.toList ++ [' '], attrSuffix d e.attrs ++ ['\n'], ?_⟩
    simp only [List.append_assoc, List.cons_append, List.nil_append]

namespace Block

theorem part_within {b : Block} {part : List Char} (h : part ∈ b.parts d op) :
    part <:+: b.body d op := by
  rw [body_eq_parts]
  exact (List.infix_of_mem_flatten h).trans (List.infix_append _ _ _)

theorem line_within_of_mem {b : Block} {e : Edge} (h : e ∈ b.edges) :
    e.line d op <:+: b.body d op :=
  part_within d op (List.mem_append_right _ (List.mem_map_of_mem h))

theorem body_within (b : Block) : b.body d op <:+: b.nested d op :=
  (List.suffix_append _ _).isInfix

theorem nested_within_of_inner {b c : Block} (h : c ∈ b.inner) :
    c.nested d op <:+: b.body d op := by
  rcases List.mem_append.1 h with h | h
  · -- a block that stands alone has a line of its own
    have hpart : c.nested d op ++ ['\n'] ∈ b.parts d op :=
      List.mem_append_left _ (List.mem_append_right _ (List.mem_map_of_mem h))
    exact (List.prefix_append _ _).isInfix.trans (part_within d op hpart)
  · obtain ⟨e, he, hc⟩ := List.mem_flatMap.1 h
    exact (Edge.nested_within d op hc).trans (line_within_of_mem d op he)

/-- **A block within a block at any depth is written in it.** -/
theorem nested_within {b c : Block} (h : c ∈ b.nestedBlocks) : c.nested d op <:+: b.body d op := by
  -- it is in a block that stands directly in this one
  obtain ⟨a, ha, hc⟩ := List.mem_flatMap.1 h
  have := sizeOf_inner ha
  have hab := nested_within_of_inner d op ha
  rcases mem_blocks.1 hc with rfl | hc
  · exact hab
  · exact (nested_within hc).trans ((a.body_within d op).trans hab)
termination_by sizeOf b

theorem body_within_of_mem {b c : Block} (h : c ∈ b.blocks) : c.body d op <:+: b.body d op := by
  rcases mem_blocks.1 h with rfl | h
  · exact List.infix_refl _
  · exact (c.body_within d op).trans (nested_within d op h)

/-- **All edge lines at any depth are written with the operator of the block.** -/
theorem line_within {b : Block} {e : Edge} (h : e ∈ b.allEdges) :
    e.line d op <:+: b.body d op := by
  obtain ⟨c, hc, he⟩ := List.mem_flatMap.1 h
  exact (line_within_of_mem d op he).trans (body_within_of_mem d op hc)

end Block

theorem Document.body_within (doc : Document) :
    doc.block.body d (d.edgeOp doc.directed) <:+: (doc.text d).toList := by
  rw [text, String.toList_ofList]
  exact (List.suffix_append _ _).isInfix

/-- **Every block of a document stands in its text with its parts in order.** So what is stated of
the parts of a block is stated of the text. -/
theorem Document.parts_within (doc : Document) {c : Block} (hc : c ∈ doc.block.blocks) :
    "\x7b\n".toList ++ (c.parts d (d.edgeOp doc.directed)).flatten ++ ['\x7d'] <:+:
      (doc.text d).toList := by
  rw [← Block.body_eq_parts]
  exact (Block.body_within_of_mem d _ hc).trans (doc.body_within d)

end Dot

variable {ρ : Type}

namespace Graph

/-! ## Graphs of nested blocks -/

/-- A block within a block belongs to a graph that is found inside the graph of the outer one. -/
theorem exists_inside_of_nested {g : Graph ρ} {b : Block} (hb : g.block = .ok b) {c : Block}
    (hc : c ∈ b.nestedBlocks) : ∃ s, g.Inside (.graph s) ∧ s.block = .ok c := by
  obtain ⟨a, ha, hca⟩ := List.mem_flatMap.1 hc
  obtain ⟨ss, hlaid⟩ := laid_of_block hb
  obtain ⟨k, hk, hka⟩ := hlaid.exists_graph_of_mem_inner ha
  obtain ⟨s, hs, hsc⟩ := exists_graph_of_mem_blocks hka hca
  obtain ⟨m, hm, hmk⟩ := hk.inside
  exact ⟨s, ⟨m, hm, hmk.trans hs⟩, hsc⟩

/-- The text is that of the graph's document where it is directed like this, but with the keywords
for a nested block instead of those for a document. -/
def NestedAs (d : Dialect) (directed : Bool) (s : Graph ρ) (text : List Char) : Prop :=
  ∃ rest, serialize { s with directed } d = .ok (String.ofList
      ((if s.strict then "strict ".toList else [])
        ++ (if directed then "digraph ".toList else "graph ".toList) ++ rest)) ∧
    text = (if s.name.anonymous then [] else "subgraph ".toList) ++ rest

/-- The block of a graph does not depend on whether the graph is directed. -/
theorem block_withDirected (s : Graph ρ) (directed : Bool) :
    block { s with directed } = s.block := by
  rw [block_eq, block_eq]
  rfl

theorem name_of_block {s : Graph ρ} {c : Block} (h : s.block = .ok c) : c.name = s.name := by
  obtain ⟨ss, -, hc⟩ := parts_of_block h
  rw [hc]
  rfl

theorem nestedAs_of_block {s : Graph ρ} {c : Block} (h : s.block = .ok c) (d : Dialect)
    (directed : Bool) : s.NestedAs d directed (c.nested d (d.edgeOp directed)) := by
  refine ⟨Dot.heading d c.name ++ c.body d (d.edgeOp directed), ?_, ?_⟩
  · unfold serialize document
    rw [block_withDirected, h]
    show Except.ok (Document.text d ⟨s.strict, directed, c⟩) = _
    rw [Document.text, Document.keywords, List.append_assoc]
  · rw [Block.nested, Dot.subheading, Dot.heading, name_of_block h]
    split
    · rfl
    · rw [List.append_assoc]

/-- What the flags of a root mean for the blocks within its own block, and for all edge lines. -/
structure FollowsRoot (r : Graph ρ) (d : Dialect) (b : Block) (text : List Char) : Prop where
  written : ∀ c ∈ b.nestedBlocks, c.nested d (d.edgeOp r.directed) <:+: text
  alike : ∀ c ∈ b.nestedBlocks, ∃ s, r.Inside (.graph s) ∧ s.block = .ok c ∧
    s.NestedAs d r.directed (c.nested d (d.edgeOp r.directed))
  lines : ∀ e ∈ b.allEdges, e.source.chars d (d.edgeOp r.directed) ++
    ' ' :: (d.edgeOp r.directed).toList ++ ' ' :: e.target.chars d (d.edgeOp r.directed) ++
    Dot.attrSuffix d e.attrs ++ ['\n'] <:+: text

theorem followsRoot_of_block {r : Graph ρ} {b : Block} (hb : r.block = .ok b) (d : Dialect)
    {text : List Char} (htext : b.body d (d.edgeOp r.directed) <:+: text) :
    r.FollowsRoot d b text where
  written c hc := (Block.nested_within d _ hc).trans htext
  alike c hc := by
    obtain ⟨s, hs, hsc⟩ := exists_inside_of_nested hb hc
    exact ⟨s, hs, hsc, nestedAs_of_block hsc d r.directed⟩
  lines e he := by
    rw [← Edge.line_parts]
    exact (Block.line_within d _ he).trans htext

end Graph

end DotDoc
