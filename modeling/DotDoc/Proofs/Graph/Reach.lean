import DotDoc.Graph.Sources
import Mathlib.Logic.Relation

/-!
# What is reached, and what is part of a graph

A source links to what its links lead to. From the members of a graph the links reach the sources
of the graph's block (`Graph.Reached`). The parts of a graph are all that its members and links
lead to at any depth, where the members of a graph that is met are entered as well (`Graph.Holds`).

The elements of a graph have identity numbers. A graph is coherent if the number says which element
it is: two parts of one number are the same source, and two links of one number that parts hold are
the same link (`Graph.Coherent`). Parts of a coherent graph are coherent.
-/

set_option autoImplicit false

namespace DotDoc

variable {ρ : Type}

namespace Source

/-- A link of the first source leads to the second. -/
def LinksTo (s t : Source ρ) : Prop := ∃ l ∈ s.links, l.target.anchor? = some (.source t)

/-- What a source has for its members: those of a graph, and none of a node. -/
def members : Source ρ → List (Source ρ)
  | node _ => []
  | graph g => g.declared

/-- The second source is a member of the first one or is linked from it. -/
def HasPart (s t : Source ρ) : Prop := t ∈ s.members ∨ s.LinksTo t

theorem mem_successors {s : Source ρ} {a : Anchor ρ} :
    a ∈ s.successors ↔ ∃ l ∈ s.links, l.target.anchor? = some a :=
  List.mem_filterMap

theorem linksTo_iff {s t : Source ρ} : s.LinksTo t ↔ .source t ∈ s.successors :=
  mem_successors.symm

/-- Parts are smaller, so that nothing is part of itself. -/
theorem HasPart.weight_lt {s t : Source ρ} (h : s.HasPart t) : t.weight < s.weight := by
  rcases h with h | h
  · cases s with
    | node n => exact absurd h List.not_mem_nil
    | graph g => exact Graph.weight_declared h
  · exact weight_of_mem_successors (linksTo_iff.1 h)

end Source

namespace Graph

/-- The sources that the members of a graph lead to by links, the members included. -/
inductive Reached (g : Graph ρ) : Source ρ → Prop
  | declared {s : Source ρ} : s ∈ g.declared → Reached g s
  | linked {s t : Source ρ} : Reached g s → s.LinksTo t → Reached g t

/-- A source is the graph itself or is found in it at some depth. -/
def Holds (g : Graph ρ) (s : Source ρ) : Prop :=
  Relation.ReflTransGen Source.HasPart (.graph g) s

theorem holds_self (g : Graph ρ) : g.Holds (.graph g) := Relation.ReflTransGen.refl

theorem Holds.linked {g : Graph ρ} {s t : Source ρ} (h : g.Holds s) (ht : s.LinksTo t) :
    g.Holds t :=
  h.tail (.inr ht)

theorem Holds.declared {g h : Graph ρ} {s : Source ρ} (hh : g.Holds (.graph h))
    (hs : s ∈ h.declared) : g.Holds s :=
  hh.tail (.inl hs)

theorem Holds.trans {g h : Graph ρ} {s : Source ρ} (hh : g.Holds (.graph h)) (hs : h.Holds s) :
    g.Holds s :=
  Relation.ReflTransGen.trans hh hs

/-- What a graph's block is made of is part of the graph. -/
theorem Reached.holds {g : Graph ρ} {s : Source ρ} (h : g.Reached s) : g.Holds s := by
  induction h with
  | declared hs => exact g.holds_self.declared hs
  | linked _ ht ih => exact ih.linked ht

/-- In a graph that is coherent an identity number belongs to one source and to one link. -/
structure Coherent (g : Graph ρ) : Prop where
  source_eq : ∀ {s t : Source ρ}, g.Holds s → g.Holds t → s.ident = t.ident → s = t
  link_eq : ∀ {s t : Source ρ} {l m : Link ρ}, g.Holds s → g.Holds t → l ∈ s.links →
    m ∈ t.links → l.ident = m.ident → l = m

theorem Coherent.of_holds {g h : Graph ρ} (hg : g.Coherent) (hh : g.Holds (.graph h)) :
    h.Coherent where
  source_eq hs ht hi := hg.source_eq (hh.trans hs) (hh.trans ht) hi
  link_eq hs ht hl hm hi := hg.link_eq (hh.trans hs) (hh.trans ht) hl hm hi

end Graph

end DotDoc
