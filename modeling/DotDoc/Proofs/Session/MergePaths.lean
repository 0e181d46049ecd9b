import DotDoc.Proofs.Graph.Paths
import DotDoc.Proofs.Session.MergeLaws

set_option autoImplicit false

/-!
# Merging at every path

Whatever path of names one follows, a merge of two graphs of a session has there what the two graphs
have there: a graph that only one of them has or that both share stays as it is, and two different
ones are merged (`Flow.Reaches.merge_pointwise`).
-/

namespace DotDoc

open Keyed (Meets)

namespace Flow

variable {f : Flow} {ws : List Stack} {h : History}

/-- **Merging works pointwise at every path and loses nothing**, for all graphs that are found in
what a session stores, whichever number is next. -/
theorem Reaches.merge_pointwise (hf : Reaches initial [] h f ws) {a b : Graph Value}
    (ha : f.Stores (.graph a)) (hb : f.Stores (.graph b)) (k : Nat) (path : List Label) :
    Meets Graph.Joins (a.at? path) (b.at? path) (((a.merge b).run k).1.at? path) := by
  obtain ⟨σ, hσ⟩ := hf.exact
  refine Graph.merge_at? (p := fun g => σ.Knows (.graph g)) ?_ ?_ path (hσ.knows_of_stores ha)
    (hσ.knows_of_stores hb) k
  · intro g hg
    exact ⟨hg.indexed hσ.kept.sound, fun s hs => hg.part (.subgraph hs)⟩
  · intro x y hx hy hi
    exact Value.graph.inj (hσ.kept.eq_of_knows hx hy rfl (congrArg some hi.symm))

/-- Two graphs with a subgraph "s". In both versions of it there are a subgraph "t", in different
versions, and the very same subgraph "u", and one of them has a further one. -/
def layeredMembers : List Step := [
  .call (.node (some (.text "a")) [("k", .text "1")]) (some "a"),
  .call (.graph none []) (some "blank"),
  .call (.graph (some (.text "u")) []) (some "u"),
  .call (.graph (some (.text "t")) []) (some "t"),
  .call (.addNodes "t" [.name "a"]) (some "t"),
  .call (.addGraphs "t" [.name "blank"]) (some "further t"),
  .call (.graph (some (.text "s")) []) (some "s"),
  .call (.addGraphs "s" [.name "t", .name "u"]) (some "s"),
  .call (.graph (some (.text "v")) []) (some "v"),
  .call (.graph (some (.text "s")) []) (some "further s"),
  .call (.addGraphs "further s" [.name "v", .name "u", .name "further t"]) (some "further s"),
  .call (.graph (some (.text "x")) []) (some "x"),
  .call (.addGraphs "x" [.name "blank", .name "s"]) (some "x"),
  .call (.graph (some (.text "y")) []) (some "y"),
  .call (.addGraphs "y" [.name "further s", .name "blank"]) (some "y")]

/-- The moment after these steps. -/
def layeredFlow : Flow := ((runAll layeredMembers).run initial).2

/-- The numbers of the subgraphs of a graph at some paths of two names. -/
def layeredIdents (g : Graph Value) : List (Option Nat) :=
  ["t", "u", "v", "w"].map fun name =>
    (g.at? [⟨"s", false⟩, ⟨name, false⟩]).map Graph.ident

theorem merge_pointwise_layered : ∃ x y : Graph Value, layeredFlow.graph? "x" = some x ∧
    layeredFlow.graph? "y" = some y ∧
    layeredIdents x = [some 9, some 6, none, none] ∧
    layeredIdents y = [some 10, some 6, some 15, none] ∧
    ∀ path, Meets Graph.Joins (x.at? path) (y.at? path) (((x.merge y).run 25).1.at? path) := by
  have hx : (layeredFlow.graph? "x").map layeredIdents = some [some 9, some 6, none, none] := by
    decide +kernel
  have hy : (layeredFlow.graph? "y").map layeredIdents =
      some [some 10, some 6, some 15, none] := by
    decide +kernel
  obtain ⟨x, hx, hix⟩ := Option.map_eq_some_iff.1 hx
  obtain ⟨y, hy, hiy⟩ := Option.map_eq_some_iff.1 hy
  have hreaches : Reaches initial [] (historyAll layeredMembers initial) layeredFlow [] :=
    reaches_runAll layeredMembers initial []
  refine ⟨x, y, hx, hy, hix, hiy, fun path => ?_⟩
  exact hreaches.merge_pointwise (stores_of_graph? hx) (stores_of_graph? hy) 25 path

end Flow

end DotDoc
