import DotDoc.Proofs.Dot.Faults
import DotDoc.Proofs.Dot.Nested
import DotDoc.Proofs.Session.Documents
import DotDoc.Proofs.Session.Members

set_option autoImplicit false

/-!
# Writing built graphs

Writing a graph that a session builds fails if and only if something is wrong with a link inside it,
and the failure tells what (`Graph.Built.serialize_error_iff`). Otherwise all blocks in the text
follow the flags of the graph that is written, whatever the flags of their own graphs are
(`Graph.followsRoot_of_serialize`).
-/

namespace DotDoc

open Dot (Dialect Document Block)

/-! ## Failures -/

theorem Graph.directed_of_document {g : Graph Value} {doc : Document} (h : g.document = .ok doc) :
    doc.directed = g.directed := by
  unfold Graph.document at h
  cases hb : g.block with
  | error e =>
      rw [hb] at h
      cases h
  | ok b =>
      rw [hb] at h
      cases h
      rfl

theorem Graph.serialize_eq_error_iff {g : Graph Value} {d : Dialect} {e : Unwritable Value} :
    g.serialize d = .error e ↔ g.block = .error e := by
  unfold Graph.serialize Graph.document
  cases g.block with
  | ok b => exact ⟨nofun, nofun⟩
  | error u =>
      constructor
      · intro h
        cases h
        rfl
      · intro h
        cases h
        rfl

theorem Graph.exists_document_of_block {g : Graph Value} {b : Block} (h : g.block = .ok b)
    (d : Dialect) : ∃ doc, g.document = .ok doc ∧ g.serialize d = .ok (doc.text d) := by
  unfold Graph.serialize Graph.document
  rw [h]
  exact ⟨_, rfl, rfl⟩

/-- **Writing a graph fails exactly on account of the links inside it.** The failure is the fault of
one of them. Without a fault the document is written in full. Nothing that is looked up for one of
its blocks is missing. -/
theorem Graph.Built.serialize_error_iff {g : Graph Value} (hg : g.Built) (hp : g.PointsMade)
    (d : Dialect) :
    ((∃ e, g.serialize d = .error e) ↔ ∃ e, g.Faulty e) ∧
      (∀ e, g.serialize d = .error e → g.Faulty e) ∧
      ((¬ ∃ e, g.Faulty e) → ∃ doc, g.document = .ok doc ∧ g.serialize d = .ok (doc.text d)) ∧
      ∀ k, k = g ∨ g.Inside (.graph k) → ∀ ss, k.sources = .ok ss → Source.Complete ss := by
  have hcoh := hg.coherent
  refine ⟨?_, ?_, ?_, ?_⟩
  · simp only [Graph.serialize_eq_error_iff]
    exact Graph.block_error_iff hcoh hp
  · intro e he
    exact Graph.fault_of_error hp (Graph.serialize_eq_error_iff.1 he)
  · intro hnone
    cases hb : g.block with
    | error e => exact absurd ⟨e, Graph.fault_of_error hp hb⟩ hnone
    | ok b => exact Graph.exists_document_of_block hb d
  · rintro k (rfl | hk) ss hss
    · exact Graph.complete_of_sources hcoh hp hss
    · exact Graph.complete_of_sources (hcoh.of_holds hk.holds) (hp.of_inside hk) hss

/-- A node links to a graph, in which a node links to a port whose record name is a number. The
graph that they are declared in holds a link to a foreign target itself, which does not matter. -/
def faultySession : List Step := [
  .call (.node (some (.text "c")) []) (some "c"),
  .call (.nodePort "c" (some (.int 7)) none) (some "p"),
  .call (.node (some (.text "b")) []) (some "b"),
  .call (.link "b" [.name "p"]) (some "b"),
  .call (.graph (some (.text "h")) []) (some "h"),
  .call (.addNodes "h" [.name "b"]) (some "h"),
  .call (.node (some (.text "a")) []) (some "a"),
  .call (.link "a" [.name "h"]) (some "a"),
  .call (.graph (some (.text "g")) []) (some "g"),
  .call (.addNodes "g" [.name "c"]) (some "g"),
  .call (.foreignTarget "t") (some "t"),
  .call (.link "g" [.name "t"]) (some "g"),
  .call (.addNodes "g" [.name "a"]) (some "f")]

theorem serialize_error_faulty :
    (∃ g : Graph Value, g.Built ∧ g.PointsMade ∧ g.nodes.length = 2 ∧
      ∃ e, g.serialize .standard = .error e) ∧
    ∃ g : Graph Value, g.Built ∧ g.PointsMade ∧ g.nodes.length = 1 ∧ g.links.length = 1 ∧
      ∃ doc, g.document = .ok doc ∧ g.serialize .standard = .ok (doc.text .standard) := by
  constructor
  · have hbuilds : sessionBuilds faultySession "f" (fun g =>
        decide (g.PointsMade ∧ g.nodes.length = 2 ∧ ∃ e, g.Faulty e)) = true := by
      decide +kernel
    obtain ⟨g, hg, hp⟩ := exists_of_sessionBuilds hbuilds
    obtain ⟨hpoints, hnodes, hfaulty⟩ := of_decide_eq_true hp
    exact ⟨g, hg, hpoints, hnodes, (hg.serialize_error_iff hpoints .standard).1.2 hfaulty⟩
  · have hbuilds : sessionBuilds faultySession "g" (fun g =>
        decide (g.PointsMade ∧ g.nodes.length = 1 ∧ g.links.length = 1 ∧
          ¬ ∃ e, g.Faulty e)) = true := by
      decide +kernel
    obtain ⟨g, hg, hp⟩ := exists_of_sessionBuilds hbuilds
    obtain ⟨hpoints, hnodes, hlinks, hnone⟩ := of_decide_eq_true hp
    exact ⟨g, hg, hpoints, hnodes, hlinks,
      (hg.serialize_error_iff hpoints .standard).2.2.1 hnone⟩

/-! ## Nested blocks -/

/-- **A nested block is written as the document of its graph, under the flags of the root.** This
holds at every depth, and so does the operator of the root in all edge lines. The flags of the
graphs below the root are never seen: a twin of the root, which may differ in them, has the same
text. -/
theorem Graph.followsRoot_of_serialize {r : Graph Value} {d : Dialect} {text : String}
    (h : r.serialize d = .ok text) :
    (∃ doc, r.document = .ok doc ∧ doc.text d = text ∧
      r.FollowsRoot d doc.block text.toList) ∧
      (Dialect.standard.edgeOp r.directed = "->" ↔ r.directed = true) ∧
      ∀ (π : Pairing Value Value) (r' : Graph Value), Graph.Twin π r r' →
        r'.directed = r.directed → r'.strict = r.strict → r'.serialize d = .ok text := by
  obtain ⟨doc, hdoc, htext⟩ := Graph.document_of_serialize h
  have hdirected : doc.directed = r.directed := Graph.directed_of_document hdoc
  refine ⟨⟨doc, hdoc, htext, ?_⟩, ?_, ?_⟩
  · have hbody := doc.body_within d
    rw [hdirected, htext] at hbody
    exact Graph.followsRoot_of_block (Graph.block_of_document hdoc) d hbody
  · cases r.directed <;> decide
  · intro π r' htwin hd hs
    have halike := htwin.serialize hd hs d
    rw [h] at halike
    generalize r'.serialize d = x at halike ⊢
    cases halike with
    | ok htext => exact congrArg Except.ok htext.symm

/-- A directed graph with a strict subgraph, which holds an anonymous directed one and links to a
graph that is not directed. -/
def flagsSession : List Step := [
  .call (.node (some (.text "a")) []) (some "a"),
  .call (.node (some (.text "b")) []) (some "b"),
  .call (.link "a" [.name "b"]) (some "a"),
  .call (.newGraph none true false none) (some "u"),
  .call (.addNodes "u" [.name "a"]) (some "u"),
  .call (.newGraph (some (.text "t")) false false none) (some "t"),
  .call (.addNodes "t" [.name "a"]) (some "t"),
  .call (.newGraph (some (.text "s")) false true none) (some "s"),
  .call (.addGraphs "s" [.name "u"]) (some "s"),
  .call (.link "s" [.name "t"]) (some "s"),
  .call (.newGraph (some (.text "g")) true false none) (some "g"),
  .call (.addGraphs "g" [.name "s"]) (some "g")]

/-- What the session writes for its graph. -/
def flagsText : String :=
  "digraph \"g\" \x7b\nsubgraph \"s\" \x7b\n\x7b\n\"a\" -> \"b\"\n\x7d\n\x7d -> " ++
    "subgraph \"t\" \x7b\n\"a\" -> \"b\"\n\x7d\n\x7d"

theorem followsRoot_of_serialize_flags : ∃ (r : Graph Value) (doc : Document), r.Built ∧
    r.document = .ok doc ∧ doc.text .standard = flagsText ∧ doc.block.nestedBlocks.length = 3 ∧
    r.FollowsRoot .standard doc.block flagsText.toList ∧
    -- the flags of all subgraphs turned
    Graph.serialize { r with subgraphs := r.subgraphs.map fun k =>
      { k with directed := !k.directed, strict := !k.strict } } .standard = .ok flagsText := by
  have hwritten : sessionWrites flagsSession "g" (fun g doc =>
      doc.text .standard == flagsText && doc.block.nestedBlocks.length == 3) = true := by
    decide +kernel
  obtain ⟨r, doc, hr, hdoc, hp⟩ := exists_of_sessionWrites hwritten
  simp only [Bool.and_eq_true, beq_iff_eq] at hp
  have hser : r.serialize .standard = .ok flagsText := by
    rw [Graph.serialize, hdoc, ← hp.1]
    rfl
  obtain ⟨⟨doc', hdoc', -, hfollows⟩, -, htwins⟩ := Graph.followsRoot_of_serialize hser
  obtain rfl : doc = doc' := Except.ok.inj (hdoc.symm.trans hdoc')
  refine ⟨r, doc, hr, hdoc, hp.1, hp.2, hfollows, htwins .same _ ?_ rfl rfl⟩
  cases r.twin_self with
  | intro ident name tables nodes subgraphs links =>
      refine .intro rfl rfl (fun slot => by cases slot <;> rfl) nodes ?_ links
      refine List.forall₂_map_right_iff.2 (subgraphs.imp fun k k' hk => ?_)
      cases hk with
      | intro ident name tables nodes subgraphs links =>
          refine .intro ident name (fun slot => ?_) nodes subgraphs links
          rw [← tables slot]
          cases slot <;> rfl

end DotDoc
