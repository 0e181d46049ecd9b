import DotDoc.Proofs.Graph.Joining

set_option autoImplicit false

/-!
# Subgraphs at a path

A path of names leads from a graph to a subgraph of it, at any depth (`Graph.at?`). What a merge
gives at a path depends on what the two graphs have at that path only: what one of them has alone or
both share stays as it is, and two different graphs are merged (`Graph.Joins`, `Graph.merge_at?`).
-/

namespace DotDoc

open Keyed (Meets)

variable {ρ : Type}

namespace Graph

/-- The node of that name. -/
def node? (g : Graph ρ) (name : Label) : Option (Node ρ) := Keyed.find? Node.key? g.nodes name

/-- The subgraph of that name. -/
def subgraph? (g : Graph ρ) (name : Label) : Option (Graph ρ) := Keyed.find? key? g.subgraphs name

/-- The subgraph to which a path of names leads. -/
def at? (g : Graph ρ) : List Label → Option (Graph ρ)
  | [] => some g
  | name :: rest => (g.subgraph? name).bind fun s => s.at? rest

variable {g x y : Graph ρ} {name : Label}

theorem at?_cons (g : Graph ρ) (name : Label) (rest : List Label) :
    g.at? (name :: rest) = (g.subgraph? name).bind fun s => s.at? rest := rfl

theorem mem_of_subgraph? (h : g.subgraph? name = some x) : x ∈ g.subgraphs :=
  List.mem_of_find?_eq_some h

/-- The third graph is the first one with the content of the second added to it. -/
structure Merged (x y m : Graph ρ) : Prop where
  name : m.name = x.name
  directed : m.directed = x.directed
  strict : m.strict = x.strict
  /-- Each table of the second is laid over that of the first. -/
  tables : ∀ slot, Table.LaidOver (x.table slot) (y.table slot) (m.table slot)
  /-- The nodes of the first come first, then those of the second whose names are new. -/
  nodeNames : m.nodes.map Node.name =
    x.nodes.map Node.name ++ (y.nodes.map Node.name).filter (· ∉ x.nodes.map Node.name)
  /-- Nodes of one name are merged. -/
  nodes : ∀ name, Meets Node.Merges (x.node? name) (y.node? name) (m.node? name)
  /-- The links of the first come first, then those of the second that it does not hold. -/
  links : m.links = x.links ++ y.links.filter fun l => l.ident ∉ x.links.map Link.ident
  /-- All anonymous subgraphs are kept, each as it is. -/
  anonymous : m.subgraphs.filter (fun s => s.name.anonymous) =
    x.subgraphs.filter (fun s => s.name.anonymous) ++
      y.subgraphs.filter fun s => s.name.anonymous

/-- What becomes of two graphs that are merged: one graph stays as it is, and of two different ones
there comes a graph with the content of both. -/
inductive Joins : Graph ρ → Graph ρ → Graph ρ → Prop
  | same (x : Graph ρ) : Joins x x x
  | merged {x y m : Graph ρ} : x.ident ≠ y.ident → x.Merged y m → Joins x y m

theorem beyond_eq_filter (known added : List (Link ρ)) :
    Link.beyond known added = added.filter fun l => l.ident ∉ known.map Link.ident := by
  refine List.filter_congr fun l _ => ?_
  rw [Bool.eq_iff_iff, decide_eq_true_iff, Bool.not_eq_true', Bool.eq_false_iff, ne_eq,
    List.any_eq_true, List.mem_map]
  simp only [beq_iff_eq]

theorem isNone_key? (s : Graph ρ) : s.key?.isNone = s.name.anonymous := by
  rw [key?]
  cases s.name.anonymous <;> rfl

/-- **A merge of two different graphs has the content of both.** -/
theorem merged_merge (hx : x.Indexed) (hy : y.Indexed) (h : x.ident ≠ y.ident) (k : Nat) :
    x.Merged y ((x.merge y).run k).1 := by
  obtain ⟨ident, nodes, nodeIndex, subgraphs, subgraphIndex, hmerge, hnodes, hsubgraphs⟩ :=
    merge_joined hx hy h k
  rw [hmerge]
  constructor
  · rfl
  · rfl
  · rfl
  · intro slot
    cases slot
    · exact Table.laidOver_overlay x.attrs y.attrs
    · exact Table.laidOver_overlay x.graphAttrs y.graphAttrs
    · exact Table.laidOver_overlay x.nodeAttrs y.nodeAttrs
    · exact Table.laidOver_overlay x.linkAttrs y.linkAttrs
  · have hkeys := hnodes.keys
    simp only [Node.filterMap_key?] at hkeys
    exact hkeys
  · exact hnodes.each
  · rw [← beyond_eq_filter]
    rfl
  · have hunnamed := hsubgraphs.unnamed
    simp only [isNone_key?] at hunnamed
    exact hunnamed

/-- **A merge works pointwise at every path**, if identity numbers tell the graphs apart that it
meets. -/
theorem merge_at? {p : Graph ρ → Prop} (hp : ∀ g, p g → g.Indexed ∧ ∀ s ∈ g.subgraphs, p s)
    (hsame : ∀ x y, p x → p y → x.ident = y.ident → x = y) (path : List Label) {a b : Graph ρ}
    (ha : p a) (hb : p b) (k : Nat) :
    Meets Joins (a.at? path) (b.at? path) (((a.merge b).run k).1.at? path) := by
  induction path generalizing a b k with
  | nil =>
      by_cases hi : a.ident = b.ident
      · obtain rfl := hsame a b ha hb hi
        rw [merge_of_ident_eq rfl]
        exact Meets.refl Joins.same _
      · exact .both (.merged hi (merged_merge (hp a ha).1 (hp b hb).1 hi k))
  | cons name rest ih =>
      by_cases hi : a.ident = b.ident
      · obtain rfl := hsame a b ha hb hi
        rw [merge_of_ident_eq rfl]
        exact Meets.refl Joins.same _
      · obtain ⟨ident, nodes, nodeIndex, subgraphs, subgraphIndex, hmerge, -, hsubgraphs⟩ :=
          merge_joined (hp a ha).1 (hp b hb).1 hi k
        have hstep : Meets Merges (a.subgraph? name) (b.subgraph? name)
            (((a.merge b).run k).1.subgraph? name) := by
          rw [hmerge]
          exact hsubgraphs.each name
        rw [at?_cons, at?_cons, at?_cons]
        -- from two subgraphs the path goes on in what their merge gives
        refine hstep.bind fun x y m hx hy hmerges => ?_
        obtain ⟨k', rfl⟩ := hmerges
        have hpx := (hp a ha).2 x (mem_of_subgraph? hx)
        have hpy := (hp b hb).2 y (mem_of_subgraph? hy)
        exact ih hpx hpy k'

end Graph

end DotDoc
