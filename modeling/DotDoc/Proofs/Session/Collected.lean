import DotDoc.Proofs.Graph.Collecting
import DotDoc.Proofs.Graph.EdgeOrder
import DotDoc.Proofs.Graph.OpenLinks
import DotDoc.Proofs.Session.Built

set_option autoImplicit false

/-!
# Collected sources

The sources of a graph are collected as a recursive visit would do it
(`Graph.Built.collectsByVisit`). The order of their edge lines is that of a scan
(`Graph.linearize_of_sources`), and where there are no cycles, it is the least order in which
sources stand before those that they link to (`Graph.orderedByLinks_of_sources`). It comes from a
loop that always counts right which links are still to come, and that ends when each source has had
its turn (`Graph.Built.ordersSafely_of_sources`).
-/

namespace DotDoc

/-- The sources of the graph that a session stores under the name can be collected, and they have
the property. -/
def sessionCollects (steps : List Step) (name : String)
    (p : Graph Value → List (Source Value) → Bool) : Bool :=
  match ((runAll steps).run Flow.initial).2.names.get? name with
  | some (.graph g) =>
    match g.sources with
    | .ok ss => p g ss
    | .error _ => false
  | _ => false

theorem exists_of_sessionCollects {steps : List Step} {name : String}
    {p : Graph Value → List (Source Value) → Bool} (h : sessionCollects steps name p = true) :
    ∃ (g : Graph Value) (ss : List (Source Value)), g.Built ∧ g.sources = .ok ss ∧
      p g ss = true := by
  unfold sessionCollects at h
  split at h
  · rename_i g hg
    split at h
    · rename_i ss hss
      exact ⟨g, ss, ⟨steps, name, hg⟩, hss, h⟩
    · cases h
  · cases h

/-- Two nodes link to each other. Another one links to itself, to a subgraph, and to a further node
twice. There is a graph with all of them, and one without the first two. -/
def linkingSession : List Step := [
  .call (.node (some (.text "x")) [("k", .text "1")]) (some "x"),
  .call (.node (some (.text "y")) [("k", .text "2")]) (some "y"),
  .call (.link "x" [.name "y"]) (some "linked x"),
  .call (.link "y" [.name "x"]) (some "linked y"),
  .call (.node (some (.text "w")) []) (some "w"),
  .call (.node (some (.text "z")) []) (some "z"),
  .call (.graph (some (.text "s")) []) (some "s"),
  .call (.link "z" [.name "w", .name "z", .name "s", .name "w"]) (some "linked z"),
  .call (.graph (some (.text "h")) []) (some "h"),
  .call (.addNodes "h" [.name "w", .name "linked z"]) (some "h"),
  .call (.graph (some (.text "g")) []) (some "g"),
  .call (.addNodes "g" [.name "linked x", .name "linked y", .name "w", .name "linked z"])
    (some "g"),
  .call (.addGraphs "g" [.name "s"]) (some "g")]

namespace Graph

/-! ## The order of edge lines -/

/-- **The order of the edge lines follows the plain rule**: always take the first of the collected
sources that are left to which no other one of them links, or the first one if there is none. -/
theorem linearize_of_sources {ρ : Type} {g : Graph ρ} {ss : List (Source ρ)}
    (h : g.sources = .ok ss) :
    Source.linearize ss = scan Source.leadsTo ss ∧ (Source.linearize ss).Perm ss :=
  ⟨Source.linearize_eq_scan (nodup_keys_sources h), Source.linearize_perm ss⟩

theorem linearize_of_sources_linking : ∃ (g : Graph Value) (ss : List (Source Value)), g.Built ∧
    g.sources = .ok ss ∧ ss.map (fun s => s.name.text) = ["x", "y", "w", "z", "s"] ∧
    (scan Source.leadsTo ss).map (fun s => s.name.text) = ["z", "w", "s", "x", "y"] ∧
    Source.linearize ss = scan Source.leadsTo ss ∧ (Source.linearize ss).Perm ss := by
  have hcollects : sessionCollects linkingSession "g" (fun _ ss =>
      ss.map (fun s => s.name.text) == ["x", "y", "w", "z", "s"] &&
        (Source.linearize ss).map (fun s => s.name.text) == ["z", "w", "s", "x", "y"]) = true := by
    decide +kernel
  obtain ⟨g, ss, hg, hss, hp⟩ := exists_of_sessionCollects hcollects
  simp only [Bool.and_eq_true, beq_iff_eq] at hp
  have hscan := linearize_of_sources hss
  exact ⟨g, ss, hg, hss, hp.1, hscan.1 ▸ hp.2, hscan⟩

/-- **Sources come before those that they link to**, as far as there are no cycles. -/
theorem orderedByLinks_of_sources {ρ : Type} {g : Graph ρ} {ss : List (Source ρ)}
    (h : g.sources = .ok ss) : Source.OrderedByLinks ss :=
  Source.orderedByLinks (nodup_keys_sources h)

/-- The source has a pointer to which nothing points. -/
def followsFirst (ss : List (Source Value)) (t : Source Value) : Bool :=
  ss.any fun s => s.leadsTo t && ss.all fun r => !r.leadsTo s && (!r.leadsTo t || r.key == s.key)

/-- The smaller graph has no cycles. The larger one has, but they do not lead to all sources that
are linked to. -/
theorem orderedByLinks_of_sources_linking :
    (∃ (g : Graph Value) (ss : List (Source Value)), g.sources = .ok ss ∧
      ss.map (fun s => s.name.text) = ["w", "z", "s"] ∧
      Acyclic Source.leadsTo ss ∧ Source.OrderedByLinks ss) ∧
    ∃ (g : Graph Value) (ss : List (Source Value)) (s t : Source Value), g.sources = .ok ss ∧
      ¬ Acyclic Source.leadsTo ss ∧ s ∈ ss ∧ t ∈ ss ∧ s.leadsTo t = true ∧
      OffCycles Source.leadsTo ss t ∧ Source.OrderedByLinks ss := by
  have hsmall : sessionCollects linkingSession "h" (fun _ ss =>
      ss.map (fun s => s.name.text) == ["w", "z", "s"] &&
        decide (PointersFirst Source.leadsTo (Source.linearize ss))) = true := by
    decide +kernel
  have hlarge : sessionCollects linkingSession "g" (fun _ ss =>
      ss.any (followsFirst ss) &&
        !decide (PointersFirst Source.leadsTo (Source.linearize ss))) = true := by
    decide +kernel
  constructor
  · obtain ⟨g, ss, -, hss, hp⟩ := exists_of_sessionCollects hsmall
    simp only [Bool.and_eq_true, beq_iff_eq, decide_eq_true_eq] at hp
    have hordered := orderedByLinks_of_sources hss
    exact ⟨g, ss, hss, hp.1, hordered.acyclic.2 hp.2, hordered⟩
  · obtain ⟨g, ss, -, hss, hp⟩ := exists_of_sessionCollects hlarge
    simp only [Bool.and_eq_true, Bool.not_eq_true', decide_eq_false_iff_not] at hp
    have hordered := orderedByLinks_of_sources hss
    obtain ⟨t, ht, hfollows⟩ := List.any_eq_true.1 hp.1
    obtain ⟨s, hs, hfirst⟩ := List.any_eq_true.1 hfollows
    obtain ⟨hst, hall⟩ := Bool.and_eq_true_iff.1 hfirst
    have hoff : OffCycles Source.leadsTo ss t := by
      rw [List.all_eq_true] at hall
      refine offCycles_of_pointers fun r hr => offCycles_of_pointers fun q hq => ?_
      obtain ⟨hrs, -, hrt⟩ := hr
      obtain ⟨hqs, -, hqr⟩ := hq
      -- only the pointer points to the source, and nothing to the pointer
      have hkey : r.key = s.key := by simpa [hrt] using (Bool.and_eq_true_iff.1 (hall r hrs)).2
      obtain rfl := sources_eq_of_key hss hrs hs hkey
      simpa [hqr] using hall q hqs
    exact ⟨g, ss, s, t, hss, fun h => hp.2 (hordered.acyclic.1 h), hs, ht, hst, hoff, hordered⟩

/-- **The sources of a graph are put in order safely**, for all graphs that a session builds, and for
all in them, whose sources can be collected. -/
theorem Built.ordersSafely_of_sources {g k : Graph Value} (hg : g.Built) (hk : g.Holds (.graph k))
    {ss : List (Source Value)} (h : k.sources = .ok ss) : Source.OrdersSafely ss :=
  Source.ordersSafely (nodup_keys_sources h) fun _ hs _ hl =>
    closed_of_sources (hg.coherent.of_holds hk) h hs hl

/-- What the agenda counts after some steps, and how many positions are ready then. -/
def counted (ss : List (Source Value)) (k : Nat) : List Nat × Nat :=
  let a := Agenda.run (Source.arrows ss) k (Agenda.start (Source.arrows ss))
  (a.incoming.toList, a.ready.size)

/-- After three steps only the two nodes are left that link to each other, and none of them is
ready. One of them is placed all the same, and then the other one. -/
theorem ordersSafely_of_sources_linking : ∃ (g : Graph Value) (ss : List (Source Value)), g.Built ∧
    g.Holds (.graph g) ∧ g.sources = .ok ss ∧
    ss.map (fun s => s.name.text) = ["x", "y", "w", "z", "s"] ∧
    (List.range 6).map (counted ss) = [([1, 1, 2, 0, 1], 1), ([1, 1, 0, 0, 0], 2),
      ([1, 1, 0, 0, 0], 1), ([1, 1, 0, 0, 0], 0), ([1, 0, 0, 0, 0], 1), ([0, 0, 0, 0, 0], 0)] ∧
    Source.OrdersSafely ss := by
  have hcollects : sessionCollects linkingSession "g" (fun _ ss =>
      ss.map (fun s => s.name.text) == ["x", "y", "w", "z", "s"] &&
        (List.range 6).map (counted ss) == [([1, 1, 2, 0, 1], 1), ([1, 1, 0, 0, 0], 2),
          ([1, 1, 0, 0, 0], 1), ([1, 1, 0, 0, 0], 0), ([1, 0, 0, 0, 0], 1),
          ([0, 0, 0, 0, 0], 0)]) = true := by
    decide +kernel
  obtain ⟨g, ss, hg, hss, hp⟩ := exists_of_sessionCollects hcollects
  simp only [Bool.and_eq_true, beq_iff_eq] at hp
  exact ⟨g, ss, hg, g.holds_self, hss, hp.1, hp.2, hg.ordersSafely_of_sources g.holds_self hss⟩

/-! ## The collection -/

/-- **The sources of a graph are collected as by a recursive visit**, for all graphs that a session
builds, and for all in them, whose links lead to no foreign target. -/
theorem Built.collectsByVisit {g k : Graph Value} (hg : g.Built) (hk : g.Holds (.graph k))
    (htargets : ∀ s, k.Reached s → ∀ l ∈ s.links, ∀ t, l.target ≠ .foreign t) :
    k.CollectsByVisit :=
  collectsByVisit_of_coherent (hg.coherent.of_holds hk) htargets

theorem collectsByVisit_linking : ∃ (g : Graph Value) (vs : List (Source Value)), g.Built ∧
    g.CollectsByVisit ∧ g.visit? = .ok vs ∧
    vs.map (fun s => s.name.text) = ["x", "y", "y", "x", "w", "z", "z", "s"] := by
  have hcollects : sessionCollects linkingSession "g" (fun g _ =>
      g.visits.map (fun s => s.name.text) == ["x", "y", "y", "x", "w", "z", "z", "s"]) = true := by
    decide +kernel
  obtain ⟨g, ss, hg, hss, hp⟩ := exists_of_sessionCollects hcollects
  have hcollected : g.CollectsByVisit := by
    refine hg.collectsByVisit .refl fun s hs l hl => ?_
    exact Source.not_foreign_of_foreign? (foreign?_of_sources hg.coherent hss hs) hl
  cases hvs : g.visit? with
  | error e =>
      rw [hcollected.fails e hvs] at hss
      cases hss
  | ok vs =>
      refine ⟨g, vs, hg, hcollected, hvs, ?_⟩
      rw [visit?_eq_visits hvs]
      exact beq_iff_eq.1 hp

end Graph

end DotDoc
