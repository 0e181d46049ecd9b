import DotDoc.Proofs.Session.Built

set_option autoImplicit false

/-!
# Members of built graphs

However a session builds a graph, its members and those of all graphs in it are told apart by their
names and are found by them, its links leave it at no port, and no key of an attribute table comes
twice (`Graph.Built.represented`).
-/

namespace DotDoc

/-- The session stores a graph with the property under the name. -/
def sessionBuilds (steps : List Step) (name : String) (p : Graph Value → Bool) : Bool :=
  match ((runAll steps).run Flow.initial).2.names.get? name with
  | some (.graph g) => p g
  | _ => false

theorem exists_of_sessionBuilds {steps : List Step} {name : String} {p : Graph Value → Bool}
    (h : sessionBuilds steps name p = true) : ∃ g : Graph Value, g.Built ∧ p g = true := by
  unfold sessionBuilds at h
  split at h
  · rename_i g hg
    exact ⟨g, ⟨steps, name, hg⟩, h⟩
  · cases h

/-- **A built graph and all graphs in it keep their members by their names.** The graphs in it are
its subgraphs at any depth, and those that links lead to. -/
theorem Graph.Built.represented {g : Graph Value} (hg : g.Built) :
    ∀ k, g.Holds (.graph k) → k.Represented :=
  fun _ hk => (hg.indexed_of_holds hk).represents

/-- A graph is merged with one of another name. Both have a subgraph "s", and they share an
anonymous one. -/
def membersSession : List Step := [
  .call (.node (some (.text "a")) []) (some "a"),
  .call (.graph none []) (some "u"),
  .call (.graph (some (.text "s")) []) (some "s"),
  .call (.addNodes "s" [.name "a"]) (some "s"),
  .call (.graph (some (.text "s")) []) (some "t"),
  .call (.addGraphs "t" [.name "s", .name "u"]) (some "t"),
  .call (.graph (some (.text "g")) []) (some "g"),
  .call (.addNodes "g" [.name "a", .name "a"]) (some "g"),
  .call (.addGraphs "g" [.name "u", .name "s", .name "u"]) (some "g"),
  .call (.graph (some (.text "h")) []) (some "h"),
  .call (.addGraphs "h" [.name "u", .name "t"]) (some "h"),
  .call (.link "h" [.name "a"]) (some "h"),
  .call (.merge "g" (.name "h")) (some "g")]

theorem represented_merged : ∃ g : Graph Value, g.Built ∧ g.nodes.length = 1 ∧
    g.subgraphs.map (fun s => (s.name.text, s.subgraphs.length)) =
      [("", 0), ("s", 2), ("", 0), ("", 0)] ∧
    g.links.length = 1 ∧ ∀ k, g.Holds (.graph k) → k.Represented := by
  have hbuilds : sessionBuilds membersSession "g" (fun g => g.nodes.length == 1 &&
      g.subgraphs.map (fun s => (s.name.text, s.subgraphs.length)) ==
        [("", 0), ("s", 2), ("", 0), ("", 0)] && g.links.length == 1) = true := by
    decide +kernel
  obtain ⟨g, hg, hp⟩ := exists_of_sessionBuilds hbuilds
  simp only [Bool.and_eq_true, beq_iff_eq] at hp
  exact ⟨g, hg, hp.1.1, hp.1.2, hp.2, hg.represented⟩

end DotDoc
