import DotDoc.Proofs.Dot.Tree
import DotDoc.Proofs.Graph.Rounds
import DotDoc.Proofs.Session.Defaults

set_option autoImplicit false

/-!
# Parts are older

Whatever is made is made of what is there already. So what is found inside an element or an endpoint
has a smaller identity number (`Registry.Aged`), at every moment of a session, and nothing is found
inside itself. Names are no help here: a node may well lead to another one of its own name, and an
entry of merged nodes combines links of several ages.

So the blocks that are written within a block belong to older graphs, and each collection of sources
ends (`Flow.Reaches.founded`).
-/

namespace DotDoc

/-! ## What is recorded is made of older parts -/

/-- A registry is aged up to a number if all its numbers are below that one, and what is found
inside something recorded has a smaller number than that. -/
structure Registry.Aged (σ : Registry) (n : Nat) : Prop where
  below : ∀ {i v}, σ i v → i < n
  older : ∀ {i v}, σ i v → ∀ {w}, Relation.TransGen Value.Part v w → ∀ {j}, w.number? = some j →
    j < i

theorem Registry.keeps_aged : Registry.Keeps Registry.Aged where
  skip h := ⟨fun hv => Nat.lt_succ_of_lt (h.below hv), h.older⟩
  record {σ n v} h hparts _ := by
    constructor
    · rintro i w (hw | ⟨rfl, -⟩)
      · exact Nat.lt_succ_of_lt (h.below hw)
      · exact Nat.lt_succ_self _
    · rintro i u (hu | ⟨rfl, rfl⟩) w hw j hj
      · exact h.older hu hw hj
      · -- what is inside the new one was known before, so it has a number that is taken
        obtain ⟨p, hp, hpw⟩ := Relation.TransGen.head'_iff.1 hw
        exact h.below (hparts p hp w hpw j hj)

/-! ## Blocks within a block -/

namespace Graph

variable {ρ : Type}

/-- The block of the first graph is written with that of the second one in it: the second one stands
alone there, or at one of the ends of an edge. -/
inductive Opens (k h : Graph ρ) : Prop
  | alone {ss : List (Source ρ)} (hs : k.sources = .ok ss) (hh : h ∈ Source.aloneGraphs ss)
  | source {ss : List (Source ρ)} (hs : k.sources = .ok ss) {l : Link ρ}
    (hh : (.graph h, l) ∈ Source.edges ss)
  | target {ss : List (Source ρ)} (hs : k.sources = .ok ss) {x : Source ρ × Link ρ}
    (hx : x ∈ Source.edges ss) (hh : x.2.target = .graph h)

theorem Opens.reached {k h : Graph ρ} (hk : k.Opens h) : k.Reached (.graph h) := by
  cases hk with
  | alone hs hh => exact reached_of_mem_visits ((graph_mem_sources hs).1 (mem_aloneGraphs hh))
  | source hs hh => exact reached_of_mem_visits ((graph_mem_sources hs).1 (Source.mem_edges hh).1)
  | target hs hx hh =>
      obtain ⟨hmem, hl⟩ := Source.mem_edges hx
      exact reached_of_link hs hmem hl (by rw [hh]; rfl)

/-- What a graph reaches is found inside it. -/
theorem Reached.parts {g : Graph Value} {s : Source Value} (h : g.Reached s) :
    Relation.TransGen Value.Part (.graph g) s.toValue := by
  induction h with
  | declared hs => exact Source.HasPart.parts (s := .graph g) (.inl hs)
  | linked _ ht ih => exact ih.trans (Source.HasPart.parts (.inr ht))

end Graph

/-! ## Every moment of a session -/

namespace Flow

variable {f : Flow} {ws : List Stack} {h : History}

/-- At every moment of a session what is known is made of older parts. -/
theorem Reaches.aged (hf : Reaches initial [] h f ws) : ∃ σ, f.Known Registry.Aged σ := by
  have hinit : initial.Known Registry.Aged fun _ _ => False := by
    constructor
    · exact ⟨fun h => h.elim, fun h => h.elim⟩
    · intro n v hv
      cases hv
  obtain ⟨σ, -, hσ⟩ := hf.known Registry.keeps_aged _ hinit
  exact ⟨σ, hσ⟩

theorem Stores.parts {v w : Value} (hv : f.Stores v) (hw : Relation.ReflTransGen Value.Part v w) :
    f.Stores w := by
  obtain ⟨n, u, hu, huv⟩ := hv
  exact ⟨n, u, hu, huv.trans hw⟩

/-- What is found inside an element or endpoint that is stored is older. -/
theorem Reaches.older (hf : Reaches initial [] h f ws) {v w : Value} (hv : f.Stores v)
    (hw : Relation.TransGen Value.Part v w) {i j : Nat} (hi : v.number? = some i)
    (hj : w.number? = some j) : j < i := by
  obtain ⟨σ, hσ⟩ := hf.aged
  obtain ⟨n, u, hu, huv⟩ := hv
  exact hσ.kept.older (hσ.names n u hu v huv i hi) hw hj

/-- What is said of the models that are stored at a moment of a session. -/
structure Founded (f : Flow) : Prop where
  /-- What is found inside an element or endpoint was made before it. -/
  older : ∀ v w, f.Stores v → Relation.TransGen Value.Part v w → ∀ i j, v.number? = some i →
    w.number? = some j → j < i
  /-- No element or endpoint is found inside itself. -/
  acyclic : ∀ v w, f.Stores v → Relation.TransGen Value.Part v w → ∀ i, v.number? = some i →
    w.number? ≠ some i
  /-- A graph whose block is written within that of another one was made before it. -/
  opens : ∀ k m, f.Stores (.graph k) → k.Opens m → f.Stores (.graph m) ∧ m.ident < k.ident
  /-- Blocks are written within blocks to a finite depth. -/
  wellFounded : WellFounded fun m k => f.Stores (.graph k) ∧ k.Opens m
  /-- The sources of every block are collected in a bounded number of rounds, each of them entered
  at most once. -/
  collects : ∀ k, f.Stores (.graph k) → k.CollectsOnce

/-- **At every moment of a session models are made of older parts, and can be written in finitely
many steps.** -/
theorem Reaches.founded (hf : Reaches initial [] h f ws) : f.Founded where
  older _ _ hv hw _ _ hi hj := hf.older hv hw hi hj
  acyclic _ _ hv hw _ hi hj := Nat.lt_irrefl _ (hf.older hv hw hi hj)
  opens _ _ hk hkm :=
    ⟨hk.parts hkm.reached.parts.to_reflTransGen, hf.older hk hkm.reached.parts rfl rfl⟩
  wellFounded := by
    refine Subrelation.wf ?_ (InvImage.wf Graph.ident Nat.lt_wfRel.wf)
    rintro m k ⟨hk, hkm⟩
    exact hf.older hk hkm.reached.parts rfl rfl
  collects k _ := k.collectsOnce

/-- Two nodes link to each other by their names, in several versions, and one of them to the graph
that it is then added to. -/
def cyclicSteps : List Step := [
  .call (.node (some (.text "a")) []) (some "a"),
  .call (.node (some (.text "b")) []) (some "b"),
  .call (.link "a" [.name "b"]) (some "a"),
  .call (.link "b" [.name "a"]) (some "c"),
  .call (.merge "b" (.name "c")) (some "b"),
  .call (.link "a" [.name "b"]) (some "a"),
  .call (.graph (some (.text "g")) []) (some "g"),
  .call (.addNodes "g" [.name "a"]) (some "g"),
  .call (.link "a" [.name "g"]) (some "a"),
  .call (.addNodes "g" [.name "b", .name "a"]) (some "g")]

theorem founded_cyclic :
    (match ((runAll cyclicSteps).run initial).2.names.get? "g" with
      | some (.graph g) => g.visits.map fun s => s.name.text
      | _ => []) = ["a", "b", "b", "a", "g"] ∧
    Reaches initial [] (historyAll cyclicSteps initial) ((runAll cyclicSteps).run initial).2 [] ∧
    ((runAll cyclicSteps).run initial).2.Founded := by
  have hreaches := reaches_runAll cyclicSteps initial []
  exact ⟨by decide +kernel, hreaches, hreaches.founded⟩

end Flow

end DotDoc
