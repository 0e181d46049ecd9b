import DotDoc.Proofs.Dot.Faults
import DotDoc.Proofs.Graph.Content

set_option autoImplicit false

/-!
# Collecting by recursion

A recursive visit starts from the nodes of a graph and then from its subgraphs. It enters each
source once, and what a source links to is visited before the rest; it fails where an endpoint that
is met is anchored at no source (`Graph.visit?`). Where it returns, it has visited what is reached
(`Graph.visit?_eq_visits`).

If no reached link leads to a foreign target, the collection and this visit return or fail alike
(`Graph.sources_alike`). The entries that are collected are then determined by what was visited: by
the order of the keys and, for each node name, by merging the nodes of that name one after the other
(`Source.EntriesOf`, `Graph.collectsByVisit_of_coherent`).
-/

namespace DotDoc

variable {ρ : Type}

/-! ## The visit -/

theorem exists_of_bind_eq_ok {ε α β : Type} {x : Except ε α} {f : α → Except ε β} {b : β}
    (h : x >>= f = .ok b) : ∃ a, x = .ok a ∧ f a = .ok b := by
  cases x with
  | error e => cases h
  | ok a => exact ⟨a, rfl, h⟩

namespace Source

/-- Visit what is pending from left to right. A source that was seen already is passed over; any
other one is entered, and what it links to is visited before the rest. -/
def visit? (seen : List (Source ρ)) : List (Anchor ρ) → Except (Unwritable ρ) (List (Source ρ))
  | [] => .ok seen
  | .foreign v :: _ => .error (.anchor v)
  | .source s :: rest =>
    if s.ident ∈ idents seen then visit? seen rest
    else do
      let seen' ← visit? (seen ++ [s]) s.successors
      visit? seen' rest
termination_by pending => Anchor.totalWeight pending
decreasing_by
  · have := s.weight_pos
    simp only [Anchor.totalWeight, Anchor.weight]
    omega
  · have := s.totalWeight_successors
    simp only [Anchor.totalWeight, Anchor.weight]
    omega
  · have := s.weight_pos
    simp only [Anchor.totalWeight, Anchor.weight]
    omega

variable {seen vs : List (Source ρ)} {p : List (Anchor ρ)}

@[simp] theorem visit?_nil (seen : List (Source ρ)) : visit? seen [] = .ok seen := by
  rw [visit?]

theorem visit?_foreign (seen : List (Source ρ)) (v : ρ) (rest : List (Anchor ρ)) :
    visit? seen (.foreign v :: rest) = .error (.anchor v) := by
  rw [visit?]

theorem visit?_cons_of_mem {s : Source ρ} (rest : List (Anchor ρ)) (h : s.ident ∈ idents seen) :
    visit? seen (.source s :: rest) = visit? seen rest := by
  rw [visit?, if_pos h]

theorem visit?_cons_of_notMem {s : Source ρ} (rest : List (Anchor ρ))
    (h : s.ident ∉ idents seen) : visit? seen (.source s :: rest) =
      visit? (seen ++ [s]) s.successors >>= fun seen' => visit? seen' rest := by
  rw [visit?, if_neg h]

theorem visit?_append (seen : List (Source ρ)) (p q : List (Anchor ρ)) :
    visit? seen (p ++ q) = visit? seen p >>= fun seen' => visit? seen' q := by
  fun_induction visit? seen p with
  | case1 seen => rfl
  | case2 seen v rest =>
      rw [List.cons_append, visit?_foreign]
      rfl
  | case3 seen s rest h ih => rw [List.cons_append, visit?_cons_of_mem _ h, ih]
  | case4 seen s rest h ih1 ih2 =>
      rw [List.cons_append, visit?_cons_of_notMem _ h, bind_assoc]
      exact bind_congr ih2

/-- A visit that returns has seen the sources among what was pending, and what they lead to. -/
theorem eq_visitAll_of_visit? (h : visit? seen p = .ok vs) :
    vs = visitAll seen (p.filterMap Anchor.source?) := by
  fun_induction visit? seen p generalizing vs with
  | case1 seen =>
      cases h
      simp
  | case2 => cases h
  | case3 seen s rest hs ih =>
      rw [List.filterMap_cons_some (show Anchor.source? (.source s) = some s from rfl),
        visitAll_cons_of_mem _ hs]
      exact ih h
  | case4 seen s rest hs ih1 ih2 =>
      obtain ⟨seen', hseen', hrest⟩ := exists_of_bind_eq_ok h
      rw [List.filterMap_cons_some (show Anchor.source? (.source s) = some s from rfl),
        visitAll_cons_of_notMem _ hs, linked, ← ih1 hseen']
      exact ih2 seen' hrest

/-- A visit that returns has met nothing foreign. -/
theorem notMem_of_visit? (h : visit? seen p = .ok vs) (v : ρ) :
    .foreign v ∉ p ∧ ∀ s ∈ vs, s ∈ seen ∨ .foreign v ∉ s.successors := by
  fun_induction visit? seen p generalizing vs with
  | case1 seen =>
      cases h
      exact ⟨List.not_mem_nil, fun s hs => .inl hs⟩
  | case2 => cases h
  | case3 seen s rest hs ih =>
      obtain ⟨hrest, hvs⟩ := ih h
      exact ⟨by simpa using hrest, hvs⟩
  | case4 seen s rest hs ih1 ih2 =>
      obtain ⟨seen', hlinked, hvisit⟩ := exists_of_bind_eq_ok h
      obtain ⟨hsucc, hseen'⟩ := ih1 hlinked
      obtain ⟨hrest, hvs⟩ := ih2 seen' hvisit
      refine ⟨by simpa using hrest, fun t ht => ?_⟩
      -- what was entered on the way is `s` or was entered from its links
      rcases hvs t ht with ht | ht
      · rcases hseen' t ht with ht | ht
        · rcases List.mem_append.1 ht with ht | ht
          · exact .inl ht
          · rw [List.mem_singleton.1 ht]
            exact .inr hsucc
        · exact .inr ht
      · exact .inr ht

/-- If nothing foreign is pending, and links hand on a property that keeps sources from leading to
anything foreign, then the visit returns. -/
theorem exists_visit? {P : Source ρ → Prop} (hlinks : ∀ s t, P s → s.LinksTo t → P t)
    (hanchors : ∀ s, P s → ∀ v, .foreign v ∉ s.successors) (seen : List (Source ρ))
    (p : List (Anchor ρ)) (hp : ∀ a ∈ p, ∃ s, a = .source s ∧ P s) :
    ∃ vs, visit? seen p = .ok vs := by
  fun_induction visit? seen p with
  | case1 seen => exact ⟨seen, rfl⟩
  | case2 seen v rest =>
      obtain ⟨s, hs, -⟩ := hp _ List.mem_cons_self
      cases hs
  | case3 seen s rest hs ih => exact ih fun a ha => hp a (List.mem_cons_of_mem _ ha)
  | case4 seen s rest hs ih1 ih2 =>
      obtain ⟨u, hu, hPu⟩ := hp _ List.mem_cons_self
      cases hu
      have hsucc : ∀ a ∈ s.successors, ∃ t, a = .source t ∧ P t := by
        intro a ha
        cases a with
        | foreign v => exact absurd ha (hanchors s hPu v)
        | source t => exact ⟨t, rfl, hlinks s t hPu (linksTo_iff.2 ha)⟩
      obtain ⟨seen', h1⟩ := ih1 hsucc
      rw [h1]
      exact ih2 seen' fun a ha => hp a (List.mem_cons_of_mem _ ha)

end Source

/-- A collection and a visit return or fail alike, if links hand on a property that keeps sources
from linking to foreign targets. -/
theorem collectSources_alike {P : Source ρ → Prop} (hlinks : ∀ s t, P s → s.LinksTo t → P t)
    (hnone : ∀ s, P s → s.foreign? = none) (pending : List (Anchor ρ)) (visited : List Nat)
    (entries : Table SourceKey (Source ρ)) (seen : List (Source ρ))
    (hseen : ∀ i, i ∈ visited ↔ i ∈ Source.idents seen) (hp : ∀ s, .source s ∈ pending → P s) :
    (collectSources pending visited entries).map (fun _ => ()) =
      (Source.visit? seen pending).map fun _ => () := by
  fun_induction collectSources pending visited entries generalizing seen with
  | case1 => rw [Source.visit?_nil]; rfl
  | case2 visited entries v rest => rw [Source.visit?_foreign]; rfl
  | case3 visited entries s rest hv ih =>
      rw [Source.visit?_cons_of_mem _ ((hseen _).1 hv)]
      exact ih seen hseen fun t ht => hp t (List.mem_cons_of_mem _ ht)
  | case4 visited entries s rest hv t hf =>
      rw [hnone s (hp s List.mem_cons_self)] at hf
      cases hf
  | case5 visited entries s rest hv hf ih =>
      have hseen' : ∀ i, i ∈ s.ident :: visited ↔ i ∈ Source.idents (seen ++ [s]) := by
        intro i
        simp [hseen, Source.idents, or_comm]
      rw [Source.visit?_cons_of_notMem _ fun hm => hv ((hseen _).2 hm), ← Source.visit?_append]
      refine ih (seen ++ [s]) hseen' fun t ht => ?_
      rcases List.mem_append.1 ht with ht | ht
      · exact hlinks s t (hp s List.mem_cons_self) (Source.linksTo_iff.2 ht)
      · exact hp t (List.mem_cons_of_mem _ ht)

/-! ## Keys in the order in which they are first seen -/

/-- Keys are recorded in the order in which they are first seen. -/
theorem keys_foldl_recordSource (vs : List (Source ρ)) :
    (vs.foldl recordSource ∅).keys = (vs.map Source.key).eraseDups := by
  -- from the end, as the last key is put behind the others if it is new
  induction vs using List.reverseRecOn with
  | nil => rfl
  | append_singleton vs s ih =>
      rw [List.foldl_append, List.foldl_cons, List.foldl_nil, recordSource, Table.keys_set, ih,
        List.map_append, List.map_singleton, eraseDups_append_of_nodup _ (by simp)]
      by_cases hmem : s.key ∈ vs.map Source.key
      · rw [if_pos (List.mem_eraseDups.2 hmem), List.filter_cons_of_neg (by simpa using hmem)]
        simp
      · rw [if_neg fun h => hmem (List.mem_eraseDups.1 h),
          List.filter_cons_of_pos (by simpa using hmem)]
        simp

/-! ## Merging nodes one after the other -/

namespace Node

/-- The second node is what merging the first one with others, one after the other, gives. -/
structure Gathers (n : Node ρ) (others : List (Node ρ)) (m : Node ρ) : Prop where
  /-- Whichever new numbers the merged nodes get. -/
  merged : ∀ k, (∀ r ∈ n :: others, r.ident < k) →
    ((others.foldlM merge n).run k).1.content = m.content
  /-- The keys of all tables in the order in which they are first seen. -/
  keys : m.attrs.keys = ((n :: others).flatMap fun r => r.attrs.keys).eraseDups
  /-- The last node that has the key wins. -/
  get? : ∀ key, m.attrs.get? key = (n :: others).reverse.findSome? fun r => r.attrs.get? key

theorem content_foldl_absorb (others : List (Node ρ)) (n : Node ρ) :
    (others.foldl absorb n).content = others.foldl absorb n.content := by
  induction others generalizing n with
  | nil => rfl
  | cons r rest ih =>
      rw [List.foldl_cons, List.foldl_cons, ih]
      rfl

theorem content_foldlM_merge (others : List (Node ρ)) (n : Node ρ) (k : Nat)
    (hn : ∀ r ∈ others, n.ident ≠ r.ident) (hk : ∀ r ∈ others, r.ident < k) :
    ((others.foldlM merge n).run k).1.content = others.foldl absorb n.content := by
  induction others generalizing n k with
  | nil => rfl
  | cons r rest ih =>
      have hr : n.ident ≠ r.ident := hn r List.mem_cons_self
      have hrest : ∀ t ∈ rest, t.ident < k := fun t ht => hk t (List.mem_cons_of_mem r ht)
      have hstep : (n.merge r).run k = ({ n.absorb r with ident := k }, k + 1) := by
        rw [merge, if_neg hr]
        rfl
      have hrun : ((r :: rest).foldlM merge n).run k =
          (rest.foldlM merge { n.absorb r with ident := k }).run (k + 1) := by
        rw [List.foldlM_cons, StateT.run_bind, hstep]
        rfl
      rw [hrun, ih]
      · rfl
      · exact fun t ht => Nat.ne_of_gt (hrest t ht)
      · exact fun t ht => Nat.lt_succ_of_lt (hrest t ht)

/-- Nodes of different numbers are gathered by absorbing one after the other. -/
theorem gathers_foldl_absorb {n : Node ρ} {others : List (Node ρ)}
    (h : ((n :: others).map ident).Nodup) : n.Gathers others (others.foldl absorb n) where
  merged k hk := by
    rw [content_foldl_absorb]
    apply content_foldlM_merge
    · rw [List.map_cons, List.nodup_cons] at h
      exact fun r hr e => h.1 (e ▸ List.mem_map_of_mem hr)
    · exact fun r hr => hk r (List.mem_cons_of_mem n hr)
  keys := by
    clear h
    induction others using List.reverseRecOn with
    | nil => simp [eraseDups_of_nodup n.attrs.nodup_keys]
    | append_singleton others r ih =>
        have hlaid : (others ++ [r]).foldl absorb n = (others.foldl absorb n).absorb r := by simp
        rw [hlaid, absorb, (Table.laidOver_overlay _ _).keys, ih, ← List.cons_append,
          List.flatMap_append, List.flatMap_singleton,
          eraseDups_append_of_nodup _ r.attrs.nodup_keys]
        simp
  get? key := by
    clear h
    induction others using List.reverseRecOn with
    | nil => simp
    | append_singleton others r ih =>
        have hlaid : (others ++ [r]).foldl absorb n = (others.foldl absorb n).absorb r := by simp
        rw [hlaid, absorb, (Table.laidOver_overlay _ _).get?, ih, ← List.cons_append,
          List.reverse_append, List.reverse_singleton, List.singleton_append,
          List.findSome?_cons]
        cases r.attrs.get? key <;> rfl

end Node

/-! ## The entries -/

/-- The entries are those that a visit makes. -/
structure Source.EntriesOf (vs ss : List (Source ρ)) : Prop where
  /-- They stand in the order in which their keys are first visited. -/
  keys : ss.map key = (vs.map key).eraseDups
  /-- The entry of a name is gathered from the visited nodes of that name, in their order. -/
  nodes : ∀ m, node m ∈ ss → ∃ n others,
    ((Source.nodes vs).filter fun r => r.name = m.name) = n :: others ∧ n.Gathers others m
  /-- The entry of a graph is the graph. -/
  graphs : ∀ k, graph k ∈ ss ↔ graph k ∈ vs
  /-- Whatever an entry links to has an entry. -/
  closed : ∀ s ∈ ss, ∀ l ∈ s.links, ∃ t ∈ ss, l.target.key? = some t.key

theorem Source.map_ident_nodes_sublist (ss : List (Source ρ)) :
    ((nodes ss).map Node.ident).Sublist (idents ss) := by
  induction ss with
  | nil => exact .slnil
  | cons s rest ih =>
      cases s with
      | node n => exact ih.cons_cons n.ident
      | graph k => exact ih.cons k.ident

namespace Graph

variable {g : Graph ρ} {ss vs : List (Source ρ)}

/-- The visit that starts from the nodes of the graph and then from its subgraphs. -/
def visit? (g : Graph ρ) : Except (Unwritable ρ) (List (Source ρ)) :=
  Source.visit? [] (g.declared.map .source)

/-- The collection comes from a recursive visit. -/
structure CollectsByVisit (g : Graph ρ) : Prop where
  /-- The visit returns unless an endpoint that it meets is anchored at something foreign. -/
  returns : (∃ vs, g.visit? = .ok vs) ↔ ∀ s, g.Reached s → ∀ v, .foreign v ∉ s.successors
  /-- Then the collection fails as the visit does. -/
  fails : ∀ e, g.visit? = .error e → g.sources = .error e
  /-- No source is visited twice. -/
  once : ∀ vs, g.visit? = .ok vs → (Source.idents vs).Nodup
  /-- What is visited is what is reached. -/
  reached : ∀ vs, g.visit? = .ok vs → ∀ s, s ∈ vs ↔ g.Reached s
  /-- The collection returns the entries that the visit makes. -/
  entries : ∀ vs, g.visit? = .ok vs → ∃ ss, g.sources = .ok ss ∧ Source.EntriesOf vs ss

theorem visit?_eq_visits (h : g.visit? = .ok vs) : vs = g.visits := by
  have hdecl : (g.declared.map Anchor.source).filterMap Anchor.source? = g.declared := by
    rw [List.filterMap_map]
    exact List.filterMap_some
  rw [Source.eq_visitAll_of_visit? h, hdecl, visits]

theorem sources_alike (hnone : ∀ s, g.Reached s → s.foreign? = none) :
    g.sources.map (fun _ => ()) = g.visit?.map fun _ => () := by
  have halike := collectSources_alike (fun s t hs ht => Reached.linked hs ht) hnone
    (g.declared.map .source) [] ∅ [] (fun i => Iff.rfl) fun s hs => by
      obtain ⟨t, ht, he⟩ := List.mem_map.1 hs
      cases he
      exact .declared ht
  rw [visit?, ← halike, sources]
  cases collectSources (g.declared.map .source) [] ∅ <;> rfl

/-- The collection fails as the visit does. -/
theorem sources_eq_error (hnone : ∀ s, g.Reached s → s.foreign? = none) {e : Unwritable ρ}
    (h : g.visit? = .error e) : g.sources = .error e := by
  have halike := sources_alike hnone
  rw [h] at halike
  cases hss : g.sources with
  | error e' =>
      rw [hss] at halike
      cases halike
      rfl
  | ok ss =>
      rw [hss] at halike
      cases halike

/-- The collection returns if the visit does. -/
theorem exists_sources_eq_ok (hnone : ∀ s, g.Reached s → s.foreign? = none)
    (h : g.visit? = .ok vs) : ∃ ss, g.sources = .ok ss := by
  have halike := sources_alike hnone
  rw [h] at halike
  cases hss : g.sources with
  | error e =>
      rw [hss] at halike
      cases halike
  | ok ss => exact ⟨ss, rfl⟩

/-- If the visit returns, it has met no endpoint that is anchored at something foreign. -/
theorem not_foreign_of_visit? (hg : g.Coherent) (h : g.visit? = .ok vs) :
    ∀ s, g.Reached s → ∀ v, .foreign v ∉ s.successors := by
  intro s hs v
  have hmem : s ∈ vs := by
    rw [visit?_eq_visits h]
    exact (mem_visits hg).2 hs
  exact ((Source.notMem_of_visit? h v).2 s hmem).resolve_left List.not_mem_nil

/-- The visited nodes of a name have different numbers. -/
theorem nodup_nodesNamed (g : Graph ρ) (name : Label) :
    ((g.nodesNamed name).map Node.ident).Nodup := by
  have hnodes : ((Source.nodes g.visits).map Node.ident).Nodup :=
    g.nodup_visits.sublist (Source.map_ident_nodes_sublist g.visits)
  exact hnodes.sublist (List.filter_sublist.map _)

/-- The collected entries are those that the visit makes. -/
theorem entriesOf_visits (hg : g.Coherent)
    (hanchors : ∀ s, g.Reached s → ∀ v, .foreign v ∉ s.successors) (h : g.sources = .ok ss) :
    Source.EntriesOf g.visits ss where
  keys := by rw [keys_sources h, keys_foldl_recordSource]
  nodes m hm := by
    obtain ⟨n, others, hns, rfl⟩ := exists_foldl_absorb h hm
    refine ⟨n, others, hns, Node.gathers_foldl_absorb ?_⟩
    rw [← hns]
    exact g.nodup_nodesNamed _
  graphs k := graph_mem_sources h
  closed s hs l hl := exists_entry_of_link hg hanchors h hs hl

/-- **The collection comes from a recursive visit**, if no reached link leads to a foreign
target. -/
theorem collectsByVisit_of_coherent (hg : g.Coherent)
    (htargets : ∀ s, g.Reached s → ∀ l ∈ s.links, ∀ t, l.target ≠ .foreign t) :
    g.CollectsByVisit := by
  have hnone : ∀ s, g.Reached s → s.foreign? = none := by
    intro s hs
    cases hf : s.foreign? with
    | none => rfl
    | some t =>
        obtain ⟨l, hl, ht⟩ := Source.exists_of_foreign? hf
        exact absurd ht (htargets s hs l hl t)
  constructor
  · constructor
    · rintro ⟨vs, hvs⟩
      exact not_foreign_of_visit? hg hvs
    · intro h
      refine Source.exists_visit? (fun s t hs ht => Reached.linked hs ht) h [] _ fun a ha => ?_
      obtain ⟨s, hs, rfl⟩ := List.mem_map.1 ha
      exact ⟨s, rfl, .declared hs⟩
  · exact fun e he => sources_eq_error hnone he
  · intro vs hvs
    rw [visit?_eq_visits hvs]
    exact g.nodup_visits
  · intro vs hvs s
    rw [visit?_eq_visits hvs]
    exact mem_visits hg
  · intro vs hvs
    obtain ⟨ss, hss⟩ := exists_sources_eq_ok hnone hvs
    refine ⟨ss, hss, ?_⟩
    rw [visit?_eq_visits hvs]
    exact entriesOf_visits hg (not_foreign_of_visit? hg hvs) hss

/-- **Collected sources are closed under links**: each of their links leads to one of them. -/
theorem closed_of_sources (hg : g.Coherent) (h : g.sources = .ok ss) {s : Source ρ} (hs : s ∈ ss)
    {l : Link ρ} (hl : l ∈ s.links) : ∃ t ∈ ss, l.target.key? = some t.key := by
  have hvisit := collectsByVisit_of_coherent hg fun s hs l hl =>
    Source.not_foreign_of_foreign? (foreign?_of_sources hg h hs) hl
  cases hvs : g.visit? with
  | error e =>
      rw [hvisit.fails e hvs] at h
      cases h
  | ok vs => exact exists_entry_of_link hg (not_foreign_of_visit? hg hvs) h hs hl

end Graph

end DotDoc
