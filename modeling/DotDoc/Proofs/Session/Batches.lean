import DotDoc.Proofs.Graph.Renumbered
import DotDoc.Proofs.Session.MergeLaws

set_option autoImplicit false

/-!
# Adding nodes and subgraphs in batches

Nodes and subgraphs of a session are added to a graph as if its members were looked through from the
front for each of them, and it makes no difference in how many batches they are added. The members
of merged graphs come about in the same way (`Flow.Reaches.additionLaws`).

The very same nodes and subgraphs stay in the graph where nothing is merged. Where something is, new
ones are made, and these are the same but for their numbers: how many numbers have been handed out
before depends on the batches.
-/

namespace DotDoc

open Keyed (Scanned scanAll)

variable {σ : Registry} {n : Nat}

namespace Registry

/-- A known element has a number that has been handed out. -/
theorem Exact.lt_of_knows (hσ : σ.Exact n) {v : Value} {i : Nat} (hv : σ.Knows v)
    (hi : v.number? = some i) : i < n :=
  hσ.below (hv v .refl i hi)

/-- A known graph was there before, with all its members. -/
theorem Exact.before_of_knows (hσ : σ.Exact n) {g : Graph Value} (hg : σ.Knows (.graph g)) :
    g.Before n :=
  Graph.before_of (p := fun k => σ.Knows (.graph k)) (fun _ hk => ⟨hσ.lt_of_knows hk rfl,
    fun _ hb => hσ.lt_of_knows (hk.part (.graphNode hb)) rfl, fun _ hs => hk.part (.subgraph hs)⟩)
    g hg

theorem Exact.node_merging (hσ : σ.Exact n) {items : List (Node Value)}
    (h : ∀ b ∈ items, σ.Knows (.node b)) : Keyed.Merging n Node.ident Node.key? Node.merge
      (Node.Renumbered n) Node.links items := by
  refine Node.merging (fun b hb => hσ.lt_of_knows (h b hb) rfl) fun a ha b hb hab => ?_
  exact Value.node.inj (hσ.eq_of_knows (h a ha) (h b hb) rfl (congrArg some hab.symm))

theorem Exact.graph_merging (hσ : σ.Exact n) {items : List (Graph Value)}
    (h : ∀ s ∈ items, σ.Knows (.graph s)) : Keyed.Merging n Graph.ident Graph.key? Graph.merge
      (Graph.Renumbered n) Graph.links items := by
  refine Graph.merging (fun s hs => hσ.before_of_knows (h s hs)) fun a ha b hb hab => ?_
  exact Value.graph.inj (hσ.eq_of_knows (h a ha) (h b hb) rfl (congrArg some hab.symm))

end Registry

/-! ## The laws -/

/-- Items are added to the members of a graph as by scans, and it makes no difference in which
batches. -/
structure AdditionLaws {α κ : Type} [DecidableEq κ] (n : Nat) (key? : α → Option κ)
    (merge : α → α → Supply α) (same : α → α → Prop) (links : α → List (Link Value))
    (members : Graph Value → List α) (add : Graph Value → List α → Supply (Graph Value))
    (g : Graph Value) (batches : List (List α)) : Prop where
  scanned : Scanned n n key? merge same links (members g) batches.flatten
    (members ((add g batches.flatten).run n).1)
  batched : ∀ m, n ≤ m → List.Forall₂ same (members ((batches.foldlM add g).run m).1)
    (members ((add g batches.flatten).run n).1)

/-- The members of two merged graphs are those of scans: first the nodes of the second graph are
taken, and then its subgraphs. A graph that is merged with itself stays as it is. -/
structure MergedMembers (n : Nat) (a b : Graph Value) : Prop where
  itself : a.ident = b.ident → a.merge b = pure a
  nodes : a.ident ≠ b.ident → Scanned n n Node.key? Node.merge (Node.Renumbered n) Node.links
    a.nodes b.nodes ((a.merge b).run n).1.nodes
  subgraphs : a.ident ≠ b.ident →
    Scanned n ((scanAll Node.key? Node.merge a.nodes b.nodes).run n).2 Graph.key? Graph.merge
      (Graph.Renumbered n) Graph.links a.subgraphs b.subgraphs ((a.merge b).run n).1.subgraphs

namespace Graph

variable {g : Graph Value}

theorem addNodes_laws (hσ : σ.Exact n) (hg : σ.Knows (.graph g))
    {batches : List (List (Node Value))} (hb : ∀ ns ∈ batches, ∀ b ∈ ns, σ.Knows (.node b)) :
    AdditionLaws n Node.key? Node.merge (Node.Renumbered n) Node.links nodes addNodes g
      batches := by
  have hindexed := hg.indexed hσ.sound
  have hitems : ∀ b ∈ g.nodes ++ batches.flatten, σ.Knows (.node b) := by
    intro b hmem
    rcases List.mem_append.1 hmem with hmem | hmem
    · exact hg.part (.graphNode hmem)
    · obtain ⟨ns, hns, hbns⟩ := List.mem_flatten.1 hmem
      exact hb ns hns b hbns
  constructor
  · have hscan : ((g.addNodes batches.flatten).run n).1.nodes =
        ((scanAll Node.key? Node.merge g.nodes batches.flatten).run n).1 :=
      congrArg Prod.fst (congrFun (placeNodes_scan hindexed batches.flatten) n)
    rw [hscan]
    exact (hσ.node_merging hitems).scanned (nodup_nodeKeys hindexed) (fun _ h => h) (Nat.le_refl n)
  · intro m hm
    have hbefore : ∀ ns ∈ batches, ∀ b ∈ ns, b.ident < n := fun ns hns b hbns =>
      hσ.lt_of_knows (hb ns hns b hbns) rfl
    exact (addNodes_agree hbefore g m n hm (Nat.le_refl n)).1.nodes

theorem addSubgraphs_laws (hσ : σ.Exact n) (hg : σ.Knows (.graph g))
    {batches : List (List (Graph Value))} (hb : ∀ ss ∈ batches, ∀ s ∈ ss, σ.Knows (.graph s)) :
    AdditionLaws n key? merge (Renumbered n) links subgraphs addSubgraphs g batches := by
  have hindexed := hg.indexed hσ.sound
  have hitems : ∀ s ∈ g.subgraphs ++ batches.flatten, σ.Knows (.graph s) := by
    intro s hmem
    rcases List.mem_append.1 hmem with hmem | hmem
    · exact hg.part (.subgraph hmem)
    · obtain ⟨ss, hss, hsss⟩ := List.mem_flatten.1 hmem
      exact hb ss hss s hsss
  constructor
  · have hscan : ((g.addSubgraphs batches.flatten).run n).1.subgraphs =
        ((scanAll key? merge g.subgraphs batches.flatten).run n).1 :=
      congrArg Prod.fst (congrFun (placeSubgraphs_scan hindexed batches.flatten) n)
    rw [hscan]
    exact (hσ.graph_merging hitems).scanned (nodup_keys hindexed) (fun _ h => h) (Nat.le_refl n)
  · intro m hm
    have hbefore : ∀ ss ∈ batches, ∀ s ∈ ss, s.Before n := fun ss hss s hsss =>
      hσ.before_of_knows (hb ss hss s hsss)
    exact (addSubgraphs_agree hbefore g m n hm (Nat.le_refl n)).1.subgraphs

theorem merge_members (hσ : σ.Exact n) {a b : Graph Value} (ha : σ.Knows (.graph a))
    (hb : σ.Knows (.graph b)) : MergedMembers n a b := by
  have hia := ha.indexed hσ.sound
  have hnodes : ∀ x ∈ a.nodes ++ b.nodes, σ.Knows (.node x) := by
    intro x hx
    rcases List.mem_append.1 hx with hx | hx
    · exact ha.part (.graphNode hx)
    · exact hb.part (.graphNode hx)
  have hsubgraphs : ∀ s ∈ a.subgraphs ++ b.subgraphs, σ.Knows (.graph s) := by
    intro s hs
    rcases List.mem_append.1 hs with hs | hs
    · exact ha.part (.subgraph hs)
    · exact hb.part (.subgraph hs)
  have hmerging := hσ.node_merging hnodes
  refine ⟨merge_of_ident_eq, fun hab => ?_, fun hab => ?_⟩
  · rw [(merge_scan hia (hb.indexed hσ.sound) hab rfl).1]
    exact hmerging.scanned (nodup_nodeKeys hia) (fun _ h => h) (Nat.le_refl n)
  · rw [(merge_scan hia (hb.indexed hσ.sound) hab rfl).2]
    refine (hσ.graph_merging hsubgraphs).scanned (nodup_keys hia) (fun _ h => h) ?_
    exact hmerging.le_scanAll (fun y hy => List.mem_append_right _ hy) a.nodes (Nat.le_refl n)

end Graph

namespace Flow

variable {f : Flow} {ws : List Stack} {h : History}

/-- **Adding by the index is adding by scans, in any batches**, for all graphs, nodes and subgraphs
that are found in what a session stores, at any moment of it and at any later one. -/
theorem Reaches.additionLaws (hf : Reaches initial [] h f ws) (hn : f.world.nextIdent ≤ n) :
    (∀ (g : Graph Value) (batches : List (List (Node Value))), f.Stores (.graph g) →
      (∀ ns ∈ batches, ∀ b ∈ ns, f.Stores (.node b)) →
      AdditionLaws n Node.key? Node.merge (Node.Renumbered n) Node.links Graph.nodes Graph.addNodes
        g batches) ∧
    (∀ (g : Graph Value) (batches : List (List (Graph Value))), f.Stores (.graph g) →
      (∀ ss ∈ batches, ∀ s ∈ ss, f.Stores (.graph s)) →
      AdditionLaws n Graph.key? Graph.merge (Graph.Renumbered n) Graph.links Graph.subgraphs
        Graph.addSubgraphs g batches) ∧
    (∀ a b : Graph Value, f.Stores (.graph a) → f.Stores (.graph b) → MergedMembers n a b) := by
  obtain ⟨σ, hσ⟩ := hf.exact
  have hexact := hσ.kept.mono hn
  refine ⟨fun g batches hg hb => ?_, fun g batches hg hb => ?_, fun a b ha hb => ?_⟩
  · exact Graph.addNodes_laws hexact (hσ.knows_of_stores hg) fun ns hns b hbns =>
      hσ.knows_of_stores (hb ns hns b hbns)
  · exact Graph.addSubgraphs_laws hexact (hσ.knows_of_stores hg) fun ss hss s hsss =>
      hσ.knows_of_stores (hb ss hss s hsss)
  · exact Graph.merge_members hexact (hσ.knows_of_stores ha) (hσ.knows_of_stores hb)

theorem additionLaws_shared : sharedFlow.world.nextIdent = 23 ∧
    (∃ g a b, sharedFlow.graph? "x" = some g ∧ sharedFlow.node? "a" = some a ∧
      sharedFlow.node? "linked" = some b ∧ (a.links.length, b.links.length) = (0, 1) ∧
      AdditionLaws 23 Node.key? Node.merge (Node.Renumbered 23) Node.links Graph.nodes
        Graph.addNodes g [[b], [a, b]]) ∧
    ∃ g t u, sharedFlow.graph? "z" = some g ∧ sharedFlow.graph? "t" = some t ∧
      sharedFlow.graph? "u" = some u ∧ (g.subgraphs.length, t.subgraphs.length) = (3, 1) ∧
      AdditionLaws 23 Graph.key? Graph.merge (Graph.Renumbered 23) Graph.links Graph.subgraphs
        Graph.addSubgraphs g [[t, u], [u, t]] ∧ MergedMembers 23 t g := by
  have hnext : sharedFlow.world.nextIdent = 23 := by decide +kernel
  have hnode : (sharedFlow.node? "a").map (fun n => n.links.length) = some 0 ∧
      (sharedFlow.node? "linked").map (fun n => n.links.length) = some 1 := by decide +kernel
  have hgraph : (sharedFlow.graph? "z").map (fun g => g.subgraphs.length) = some 3 ∧
      (sharedFlow.graph? "t").map (fun g => g.subgraphs.length) = some 1 ∧
      (sharedFlow.graph? "u").isSome ∧ (sharedFlow.graph? "x").isSome := by decide +kernel
  obtain ⟨a, ha, hla⟩ := Option.map_eq_some_iff.1 hnode.1
  obtain ⟨b, hb, hlb⟩ := Option.map_eq_some_iff.1 hnode.2
  obtain ⟨z, hz, hlz⟩ := Option.map_eq_some_iff.1 hgraph.1
  obtain ⟨t, ht, hlt⟩ := Option.map_eq_some_iff.1 hgraph.2.1
  obtain ⟨u, hu⟩ := Option.isSome_iff_exists.1 hgraph.2.2.1
  obtain ⟨x, hx⟩ := Option.isSome_iff_exists.1 hgraph.2.2.2
  have hreaches : Reaches initial [] (historyAll sharedMembers initial) sharedFlow [] :=
    reaches_runAll sharedMembers initial []
  obtain ⟨hnodes, hgraphs, hmerged⟩ := hreaches.additionLaws (Nat.le_of_eq hnext)
  have hsa := stores_of_node? ha
  have hsb := stores_of_node? hb
  have hst := stores_of_graph? ht
  have hsu := stores_of_graph? hu
  refine ⟨hnext, ⟨x, a, b, hx, ha, hb, by rw [hla, hlb], ?_⟩, z, t, u, hz, ht, hu,
    by rw [hlz, hlt], ?_, hmerged t z hst (stores_of_graph? hz)⟩
  · exact hnodes x [[b], [a, b]] (stores_of_graph? hx) (by simp [hsa, hsb])
  · exact hgraphs z [[t, u], [u, t]] (stores_of_graph? hz) (by simp [hst, hsu])

end Flow

end DotDoc
