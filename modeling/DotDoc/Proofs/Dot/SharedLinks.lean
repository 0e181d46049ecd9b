import DotDoc.Proofs.Dot.Coverage
import DotDoc.Proofs.Dot.EdgeLines

set_option autoImplicit false

/-!
# Links that several blocks share

A block has the edge lines of what its own graph reaches, and the sources are collected anew for
every block. So a link may be written in several blocks of a document. If no graph forms an end of
an edge, the blocks of a document are those of the graph and of all graphs declared in it at any
depth (`Graph.family`), and a link that only nodes of one name hold, each once, is written once in
each of these blocks whose graph reaches it (`Graph.countP_allEdges`).
-/

namespace DotDoc

open Dot (Block Edge Endpoint)

variable {ρ : Type}

/-! ## Edge lines of all blocks -/

theorem Dot.Block.allEdges_eq (b : Block) : b.allEdges = b.edges ++ b.inner.flatMap allEdges := by
  show b.blocks.flatMap edges = _
  rw [blocks_eq, List.flatMap_cons, List.flatMap_assoc]
  rfl

namespace Source

/-- The source and all that is part of it at some depth, as often as it is met. -/
def within (s : Source ρ) : List (Source ρ) :=
  s :: (s.members ++ s.linked).attach.flatMap fun t => t.1.within
termination_by s.weight
decreasing_by
  refine HasPart.weight_lt ?_
  rcases List.mem_append.1 t.2 with h | h
  · exact .inl h
  · exact .inr (mem_linked.1 h)

theorem within_eq (s : Source ρ) :
    s.within = s :: (s.members ++ s.linked).flatMap within := by
  rw [within, List.flatMap_subtype (g := within) fun _ _ => rfl, List.unattach_attach]

theorem hasPart_iff {s t : Source ρ} : s.HasPart t ↔ t ∈ s.members ++ s.linked := by
  rw [List.mem_append, mem_linked]
  rfl

theorem mem_within {s t : Source ρ} :
    t ∈ s.within ↔ Relation.ReflTransGen HasPart s t := by
  rw [within_eq, List.mem_cons, List.mem_flatMap]
  constructor
  · rintro (rfl | ⟨u, hu, htu⟩)
    · exact .refl
    · have := (hasPart_iff.2 hu).weight_lt
      exact .head (hasPart_iff.2 hu) (mem_within.1 htu)
  · intro h
    rcases Relation.ReflTransGen.cases_head h with rfl | ⟨u, hu, hut⟩
    · exact .inl rfl
    · have := hu.weight_lt
      exact .inr ⟨u, hasPart_iff.1 hu, mem_within.2 hut⟩
termination_by s.weight

end Source

namespace Graph

/-! ## Graphs within graphs -/

/-- The graph and all graphs that are declared in it at any depth. -/
def family (g : Graph ρ) : List (Graph ρ) :=
  g :: g.subgraphs.attach.flatMap fun s => s.1.family
termination_by sizeOf g
decreasing_by exact Graph.sizeOf_subgraph s.2

theorem family_eq (g : Graph ρ) : g.family = g :: g.subgraphs.flatMap family := by
  rw [family, List.flatMap_subtype (g := family) fun _ _ => rfl, List.unattach_attach]

theorem mem_family_self (g : Graph ρ) : g ∈ g.family := by
  rw [family_eq]
  exact List.mem_cons_self

theorem mem_family_of_subgraph {g s k : Graph ρ} (hs : s ∈ g.subgraphs) (hk : k ∈ s.family) :
    k ∈ g.family := by
  rw [family_eq]
  exact List.mem_cons_of_mem g (List.mem_flatMap.2 ⟨s, hs, hk⟩)

/-- The source is found among the members of the graph at some depth. -/
def Inside (g : Graph ρ) (s : Source ρ) : Prop :=
  ∃ m ∈ g.declared, Relation.ReflTransGen Source.HasPart m s

theorem mem_declared_of_subgraph {g s : Graph ρ} (hs : s ∈ g.subgraphs) :
    .graph s ∈ g.declared :=
  List.mem_append_right _ (List.mem_map_of_mem hs)

theorem subgraph_of_mem_declared {g s : Graph ρ} (h : Source.graph s ∈ g.declared) :
    s ∈ g.subgraphs := by
  rcases List.mem_append.1 h with h | h
  · obtain ⟨n, -, hn⟩ := List.mem_map.1 h
    cases hn
  · obtain ⟨k, hk, heq⟩ := List.mem_map.1 h
    cases heq
    exact hk

theorem Inside.holds {g : Graph ρ} {s : Source ρ} (h : g.Inside s) : g.Holds s := by
  obtain ⟨m, hm, hms⟩ := h
  exact .head (.inl hm) hms

theorem Inside.linked {g : Graph ρ} {s t : Source ρ} (h : g.Inside s) (ht : s.LinksTo t) :
    g.Inside t := by
  obtain ⟨m, hm, hms⟩ := h
  exact ⟨m, hm, hms.tail (.inr ht)⟩

theorem Reached.inside {g : Graph ρ} {s : Source ρ} (h : g.Reached s) : g.Inside s := by
  induction h with
  | declared hs => exact ⟨_, hs, .refl⟩
  | linked _ ht ih => exact ih.linked ht

theorem mem_family_holds {g k : Graph ρ} (hk : k ∈ g.family) : g.Holds (.graph k) := by
  rw [family_eq] at hk
  rcases List.mem_cons.1 hk with rfl | hk
  · exact k.holds_self
  · obtain ⟨s, hs, hks⟩ := List.mem_flatMap.1 hk
    have := Graph.sizeOf_subgraph hs
    exact (g.holds_self.declared (mem_declared_of_subgraph hs)).trans (mem_family_holds hks)
termination_by sizeOf g

theorem Inside.of_subgraph {g k : Graph ρ} (hk : k ∈ g.subgraphs) {s : Source ρ}
    (h : k.Inside s) : g.Inside s :=
  ⟨.graph k, mem_declared_of_subgraph hk, h.holds⟩

theorem Inside.of_family {g k : Graph ρ} (hk : k ∈ g.family) {s : Source ρ} (h : k.Inside s) :
    g.Inside s := by
  rw [family_eq] at hk
  rcases List.mem_cons.1 hk with rfl | hk
  · exact h
  · obtain ⟨j, hj, hkj⟩ := List.mem_flatMap.1 hk
    have := Graph.sizeOf_subgraph hj
    exact (h.of_family hkj).of_subgraph hj
termination_by sizeOf g

theorem mem_family_trans {g k h : Graph ρ} (hk : k ∈ g.family) (hh : h ∈ k.family) :
    h ∈ g.family := by
  rw [family_eq] at hk
  rcases List.mem_cons.1 hk with rfl | hk
  · exact hh
  · obtain ⟨s, hs, hks⟩ := List.mem_flatMap.1 hk
    have := Graph.sizeOf_subgraph hs
    exact mem_family_of_subgraph hs (mem_family_trans hks hh)
termination_by sizeOf g

/-! ## Graphs that form no end of an edge -/

/-- No graph inside forms an end of an edge: none holds links, and none is led to by a link. -/
structure NoGraphEnds (g : Graph ρ) : Prop where
  links : ∀ k, g.Inside (.graph k) → k.links = []
  targets : ∀ s k, g.Inside s → ¬ s.LinksTo (.graph k)

theorem NoGraphEnds.of_subgraph {g k : Graph ρ} (hg : g.NoGraphEnds) (hk : k ∈ g.subgraphs) :
    k.NoGraphEnds where
  links h hh := hg.links h (hh.of_subgraph hk)
  targets s h hs := hg.targets s h (hs.of_subgraph hk)

variable {g : Graph ρ} {ss : List (Source ρ)} {b : Block}

/-- The graphs that are reached are the declared ones. -/
theorem NoGraphEnds.mem_subgraphs (hg : g.NoGraphEnds) {k : Graph ρ}
    (hk : g.Reached (.graph k)) : k ∈ g.subgraphs := by
  cases hk with
  | declared h => exact subgraph_of_mem_declared h
  | linked hs ht => exact absurd ht (hg.targets _ k hs.inside)

/-- What is inside a graph is reached by a graph of its family. -/
theorem NoGraphEnds.reached_of_inside (hg : g.NoGraphEnds) {s : Source ρ} (h : g.Inside s) :
    ∃ k ∈ g.family, k.Reached s := by
  obtain ⟨m, hm, hms⟩ := h
  -- along the way every graph is of the family, for links lead to no graph
  have hboth : (∃ k ∈ g.family, k.Reached s) ∧ ∀ k, s = .graph k → k ∈ g.family := by
    induction hms with
    | refl =>
        refine ⟨⟨g, g.mem_family_self, .declared hm⟩, ?_⟩
        intro k hk
        subst hk
        exact mem_family_of_subgraph (subgraph_of_mem_declared hm) k.mem_family_self
    | @tail t u hmt htu ih =>
        obtain ⟨⟨k, hk, hkt⟩, hgraph⟩ := ih
        rcases htu with hu | hu
        · cases t with
          | node n => exact absurd hu List.not_mem_nil
          | graph k' =>
              have hk' := hgraph k' rfl
              refine ⟨⟨k', hk', .declared hu⟩, ?_⟩
              intro j hj
              subst hj
              exact mem_family_trans hk'
                (mem_family_of_subgraph (subgraph_of_mem_declared hu) j.mem_family_self)
        · refine ⟨⟨k, hk, hkt.linked hu⟩, ?_⟩
          intro j hj
          subst hj
          exact absurd hu (hg.targets t j ⟨m, hm, hmt⟩)
  exact hboth.1

/-- No edge shows a block. -/
theorem NoGraphEnds.inner_eq (hg : g.NoGraphEnds) (h : g.Laid ss b) : b.inner = b.alone := by
  have hnil : b.edges.flatMap Edge.inner = [] := by
    rw [List.flatMap_eq_nil_iff]
    intro e he
    obtain ⟨s, hs, l, hl, hshows⟩ := h.exists_link_of_mem_edges he
    rw [List.eq_nil_iff_forall_not_mem]
    intro c hc
    rcases List.mem_append.1 hc with hc | hc
    · obtain ⟨k, rfl, -⟩ := Source.block_of_endpoint hshows.source (Option.mem_toList.1 hc)
      have hlinks : (Source.graph k).links = [] := hg.links k hs.inside
      rw [hlinks] at hl
      exact absurd hl List.not_mem_nil
    · obtain ⟨k, hk, -⟩ := Target.block_of_endpoint hshows.target (Option.mem_toList.1 hc)
      refine hg.targets s k hs.inside ⟨l, hl, ?_⟩
      rw [hk]
      rfl
  rw [Block.inner, hnil, List.append_nil]

/-- Every block of the document is that of a graph of the family. -/
theorem NoGraphEnds.exists_family {g : Graph ρ} {b : Block} (hends : g.NoGraphEnds)
    (hb : g.block = .ok b) {c : Block} (hc : c ∈ b.blocks) :
    ∃ k ∈ g.family, k.block = .ok c := by
  rw [Block.blocks_eq] at hc
  rcases List.mem_cons.1 hc with rfl | hc
  · exact ⟨g, g.mem_family_self, hb⟩
  · obtain ⟨d, hd, hcd⟩ := List.mem_flatMap.1 hc
    obtain ⟨ss, hlaid⟩ := laid_of_block hb
    obtain ⟨k, hk, hkd⟩ := hlaid.exists_graph_of_mem_inner hd
    have hks := hends.mem_subgraphs hk
    have := Graph.sizeOf_subgraph hks
    obtain ⟨j, hj, hjc⟩ := (hends.of_subgraph hks).exists_family hkd hcd
    exact ⟨j, mem_family_of_subgraph hks hj, hjc⟩
termination_by sizeOf g

/-- Every declared graph stands alone. -/
theorem NoGraphEnds.aloneGraphs_perm (hends : g.NoGraphEnds) (hg : g.Coherent) (h : g.Laid ss b)
    (hnd : (g.subgraphs.map ident).Nodup) : (Source.aloneGraphs ss).Perm g.subgraphs := by
  have halone := List.Nodup.of_map _ h.nodup_idents_alone
  have hsubs := List.Nodup.of_map _ hnd
  rw [List.perm_ext_iff_of_nodup halone hsubs]
  intro k
  constructor
  · intro hk
    have hv := (graph_mem_sources h.sources).1 (mem_aloneGraphs hk)
    exact hends.mem_subgraphs (reached_of_mem_visits hv)
  · intro hk
    have hreached : g.Reached (.graph k) := .declared (mem_declared_of_subgraph hk)
    -- neither of the two reasons not to let it stand alone applies
    have hkeys : SourceKey.graph k.ident ∉ Source.targetKeys ss := by
      intro hkey
      obtain ⟨s, hs, l, hl, hkey⟩ := Source.mem_targetKeys.1 hkey
      obtain ⟨v, hv, -, hlv⟩ := exists_visit_of_link h.sources hs hl
      obtain ⟨a, ha, hak⟩ := Option.bind_eq_some_iff.1 hkey
      cases a with
      | foreign u => cases hak
      | source t =>
          obtain ⟨k', rfl, -⟩ := eq_graph_of_key (Option.some.inj hak)
          exact hends.targets v k' (reached_of_mem_visits hv).inside ⟨l, hlv, ha⟩
    refine List.mem_filter.2 ⟨Source.mem_graphs.2 (graph_mem_of_reached hg h.sources hreached), ?_⟩
    rw [hends.links k hreached.inside]
    simpa using hkeys

/-! ## A link in one block -/

/-- A source that the graph reaches holds a link of that number. -/
def reachesLink (g : Graph ρ) (i : Nat) : Bool := g.visits.any fun s => Link.among s.links i

theorem reachesLink_iff (hg : g.Coherent) {i : Nat} :
    g.reachesLink i = true ↔ ∃ s, g.Reached s ∧ ∃ l ∈ s.links, l.ident = i := by
  rw [reachesLink, List.any_eq_true]
  simp only [Link.among_iff, mem_visits hg]

/-- Inside the graph only nodes of that name hold a link of that number, and each of them holds it
once. -/
def HeldOnce (g : Graph ρ) (i : Nat) (name : Label) : Prop :=
  ∀ s, g.Inside s → Link.among s.links i = true →
    ∃ n, s = .node n ∧ n.name = name ∧ Link.times n.links i = 1

theorem HeldOnce.of_subgraph {k : Graph ρ} {i : Nat} {name : Label} (h : g.HeldOnce i name)
    (hk : k ∈ g.subgraphs) : k.HeldOnce i name :=
  fun s hs => h s (hs.of_subgraph hk)

/-- **A block has one edge line for the link if its graph reaches the link, and none otherwise.** -/
theorem Laid.countP_edges (hg : g.Coherent) (h : g.Laid ss b) {i : Nat} {name : Label}
    (hheld : g.HeldOnce i name) :
    b.edges.countP (fun e => e.origin == i) = if g.reachesLink i then 1 else 0 := by
  -- a line for the link leaves the name
  have hfrom : ∀ e ∈ b.edges, e.origin = i →
      e.source.key = .node name ∧ ∃ s, g.Reached s ∧ Link.among s.links i = true := by
    intro e he hi
    obtain ⟨s, hs, l, hl, hshows⟩ := h.exists_link_of_mem_edges he
    have hamong : Link.among s.links i = true :=
      Link.among_iff.2 ⟨l, hl, hshows.origin.symm.trans hi⟩
    obtain ⟨n, rfl, hname, -⟩ := hheld s hs.inside hamong
    exact ⟨hshows.key_source.trans (congrArg SourceKey.node hname), _, hs, hamong⟩
  by_cases hreach : g.reachesLink i = true
  · rw [if_pos hreach]
    obtain ⟨s, hs, l, hl, rfl⟩ := (reachesLink_iff hg).1 hreach
    obtain ⟨n, rfl, hname, -⟩ := hheld s hs.inside (Link.among_iff.2 ⟨l, hl, rfl⟩)
    -- it is written as often as the first visited node that holds it does, which is once
    obtain ⟨first, hfirst, hcount, -⟩ := h.countP_edgesFrom hg hs hl
    have hfirstmem := (mem_nodesNamed.1 (List.mem_of_find?_eq_some hfirst)).1
    have hfirstholds : first.holdsLink l.ident = true := List.find?_some hfirst
    obtain ⟨m, hm, -, htimes⟩ := hheld (.node first) (reached_of_mem_visits hfirstmem).inside
      hfirstholds
    cases hm
    rw [htimes, Dot.Block.edgesFrom, List.countP_filter] at hcount
    rw [← hcount]
    apply List.countP_congr
    intro e he
    rw [Bool.and_eq_true]
    constructor
    · intro ho
      refine ⟨ho, ?_⟩
      rw [(hfrom e he (beq_iff_eq.1 ho)).1, hname]
      exact beq_self_eq_true _
    · exact fun ho => ho.1
  · rw [if_neg hreach, List.countP_eq_zero]
    intro e he ho
    apply hreach
    obtain ⟨-, s, hs, hamong⟩ := hfrom e he (beq_iff_eq.1 ho)
    obtain ⟨l, hl, hi⟩ := Link.among_iff.1 hamong
    exact (reachesLink_iff hg).2 ⟨s, hs, l, hl, hi⟩

/-! ## Deciding what is inside -/

/-- All sources found among the members at some depth, as often as they are found. -/
def insideAll (g : Graph ρ) : List (Source ρ) := g.declared.flatMap Source.within

theorem mem_insideAll {s : Source ρ} : s ∈ g.insideAll ↔ g.Inside s := by
  rw [insideAll, List.mem_flatMap]
  simp only [Source.mem_within]
  rfl

theorem noGraphEnds_iff : (∀ s ∈ g.insideAll, (s.isGraph = true → s.links.length = 0) ∧
    ∀ t ∈ s.linked, t.isGraph = false) ↔ g.NoGraphEnds := by
  constructor
  · intro h
    constructor
    · intro k hk
      exact List.length_eq_zero_iff.1 ((h _ (mem_insideAll.2 hk)).1 rfl)
    · intro s k hs ht
      have hfalse := (h s (mem_insideAll.2 hs)).2 _ (Source.mem_linked.2 ht)
      cases hfalse
  · intro h s hs
    rw [mem_insideAll] at hs
    constructor
    · intro hgraph
      cases s with
      | node n => cases hgraph
      | graph k => exact List.length_eq_zero_iff.2 (h.links k hs)
    · intro t ht
      cases t with
      | node n => rfl
      | graph k => exact absurd (Source.mem_linked.1 ht) (h.targets s k hs)

instance (g : Graph ρ) : Decidable g.NoGraphEnds := decidable_of_iff _ noGraphEnds_iff

theorem heldOnce_iff {i : Nat} {name : Label} :
    (∀ s ∈ g.insideAll, Link.among s.links i = true →
      s.key = .node name ∧ Link.times s.links i = 1) ↔ g.HeldOnce i name := by
  constructor
  · intro h s hs hamong
    obtain ⟨hkey, htimes⟩ := h s (mem_insideAll.2 hs) hamong
    cases s with
    | node n => exact ⟨n, rfl, SourceKey.node.inj hkey, htimes⟩
    | graph k => cases hkey
  · intro h s hs hamong
    obtain ⟨n, rfl, rfl, htimes⟩ := h s (mem_insideAll.1 hs) hamong
    exact ⟨rfl, htimes⟩

instance (g : Graph ρ) (i : Nat) (name : Label) : Decidable (g.HeldOnce i name) :=
  decidable_of_iff _ heldOnce_iff

/-! ## A link in all blocks -/

theorem sublist_flatMap_family (ks : List (Graph ρ)) : ks.Sublist (ks.flatMap family) := by
  induction ks with
  | nil => exact .slnil
  | cons k rest ih =>
      rw [List.flatMap_cons, family_eq, List.cons_append]
      exact (ih.trans (List.sublist_append_right _ _)).cons_cons k

/-- No declared graph has the number of another one. -/
theorem nodup_idents_subgraphs (h : (g.family.map ident).Nodup) :
    (g.subgraphs.map ident).Nodup := by
  rw [family_eq] at h
  exact (List.nodup_cons.1 h).2.sublist ((sublist_flatMap_family g.subgraphs).map ident)

theorem nodup_idents_family {k : Graph ρ} (h : (g.family.map ident).Nodup)
    (hk : k ∈ g.subgraphs) : (k.family.map ident).Nodup := by
  rw [family_eq] at h
  apply List.Nodup.sublist _ (List.nodup_cons.1 h).2
  apply List.Sublist.map
  exact List.sublist_flatten_of_mem (List.mem_map_of_mem hk)

theorem map_eq_of_forall₂ {α β γ : Type} {R : α → β → Prop} {f : α → γ} {f' : β → γ}
    {xs : List α} {ys : List β} (h : List.Forall₂ R xs ys)
    (hf : ∀ x ∈ xs, ∀ y, R x y → f x = f' y) : xs.map f = ys.map f' := by
  induction h with
  | nil => rfl
  | cons hxy _ ih =>
      rw [List.map_cons, List.map_cons, hf _ List.mem_cons_self _ hxy,
        ih fun x hx y hR => hf x (List.mem_cons_of_mem _ hx) y hR]

/-- In a coherent graph a link of that number is the link itself. -/
theorem reachesLink_iff_mem {g k : Graph ρ} (hg : g.Coherent) (hk : k ∈ g.family) {s : Source ρ}
    {l : Link ρ} (hs : g.Inside s) (hl : l ∈ s.links) :
    k.reachesLink l.ident = true ↔ ∃ t, k.Reached t ∧ l ∈ t.links := by
  have hkg := mem_family_holds hk
  rw [reachesLink_iff (hg.of_holds hkg)]
  constructor
  · rintro ⟨t, ht, m, hm, hi⟩
    have heq : m = l := hg.link_eq (hkg.trans ht.holds) hs.holds hm hl hi
    exact ⟨t, ht, heq ▸ hm⟩
  · rintro ⟨t, ht, hlt⟩
    exact ⟨t, ht, l, hlt, rfl⟩

/-- A line for the link shows it from a node that holds it. -/
theorem NoGraphEnds.shows_of_origin {g : Graph ρ} {b : Block} (hends : g.NoGraphEnds)
    (hg : g.Coherent) (hb : g.block = .ok b) {s : Source ρ} {l : Link ρ} {name : Label}
    (hs : g.Inside s) (hl : l ∈ s.links) (hheld : g.HeldOnce l.ident name) {e : Edge}
    (he : e ∈ b.allEdges) (hi : e.origin = l.ident) :
    ∃ n : Node ρ, n.name = name ∧ l ∈ n.links ∧ e.Shows (.node n, l) := by
  obtain ⟨c, hc, hec⟩ := List.mem_flatMap.1 he
  obtain ⟨k, hk, hkc⟩ := hends.exists_family hb hc
  obtain ⟨ss, hlaid⟩ := laid_of_block hkc
  obtain ⟨t, ht, m, hm, hshows⟩ := hlaid.exists_link_of_mem_edges hec
  have htg : g.Inside t := ht.inside.of_family hk
  have heq : m = l := hg.link_eq htg.holds hs.holds hm hl (hshows.origin.symm.trans hi)
  subst heq
  obtain ⟨n, rfl, hname, -⟩ := hheld t htg (Link.among_iff.2 ⟨m, hm, rfl⟩)
  exact ⟨n, hname, hm, hshows⟩

/-- **The document has one edge line for the link for each graph of the family that reaches it.** -/
theorem countP_allEdges {g : Graph ρ} {b : Block} (hg : g.Coherent) (hends : g.NoGraphEnds)
    (hfam : (g.family.map ident).Nodup) {i : Nat} {name : Label} (hheld : g.HeldOnce i name)
    (hb : g.block = .ok b) :
    b.allEdges.countP (fun e => e.origin == i) = g.family.countP fun k => k.reachesLink i := by
  obtain ⟨ss, h⟩ := laid_of_block hb
  have hperm := hends.aloneGraphs_perm hg h (nodup_idents_subgraphs hfam)
  have hnested : (Source.aloneGraphs ss).map (fun k => k.family.countP fun k => k.reachesLink i) =
      b.alone.map fun c => c.allEdges.countP fun e => e.origin == i := by
    apply map_eq_of_forall₂ h.alone
    intro k hk c hc
    -- the hypotheses are handed on to a declared graph, which is smaller
    have hks : k ∈ g.subgraphs := hperm.mem_iff.1 hk
    have := Graph.sizeOf_subgraph hks
    have hkg : g.Holds (.graph k) := g.holds_self.declared (mem_declared_of_subgraph hks)
    exact (countP_allEdges (hg.of_holds hkg) (hends.of_subgraph hks)
      (nodup_idents_family hfam hks) (hheld.of_subgraph hks) hc).symm
  calc b.allEdges.countP (fun e => e.origin == i)
      = b.edges.countP (fun e => e.origin == i) +
          (b.alone.map fun c => c.allEdges.countP fun e => e.origin == i).sum := by
        rw [Block.allEdges_eq, List.countP_append, hends.inner_eq h, List.countP_flatMap]
        rfl
    _ = (if g.reachesLink i then 1 else 0) +
          (g.subgraphs.map fun k => k.family.countP fun k => k.reachesLink i).sum := by
        rw [h.countP_edges hg hheld, ← hnested, (hperm.map _).sum_eq]
    _ = g.family.countP fun k => k.reachesLink i := by
        rw [family_eq, List.countP_cons, List.countP_flatMap, Nat.add_comm]
        rfl
termination_by sizeOf g

end Graph

end DotDoc
