import DotDoc.Session.Value
import DotDoc.Proofs.Graph.Index
import Mathlib.Logic.Relation
import Mathlib.Order.Basic

set_option autoImplicit false

/-!
# What is known of elements by their numbers

The nodes, links, endpoints and graphs of a session are told apart by their identity numbers. A
registry says which of them a number may belong to. It knows a value if it has every one that is
found in the value (`Registry.Knows`). What is known stays known when more is recorded (`Knows.mono`), the
parts of what is known are known (`Knows.part`), and a new element made of known parts is known
once it is recorded (`Knows.record`).
-/

namespace DotDoc

namespace Value

/-- The second value is a part of the first one, out of which it can be taken. -/
inductive Part : Value → Value → Prop
  | item {i : Nat} {items : List Value} {v : Value} : v ∈ items → Part (list i items) v
  | key {i : Nat} {entries : List (Value × Value)} {e : Value × Value} :
    e ∈ entries → Part (map i entries) e.1
  | entry {i : Nat} {entries : List (Value × Value)} {e : Value × Value} :
    e ∈ entries → Part (map i entries) e.2
  | record (p : Port Value) : Part (port p) (ofRecord p.record)
  | anchor (p : NodePoint Value) : Part (point p) (ofAnchor p.anchor)
  | place (p : NodePoint Value) : Part (point p) (ofPlace p.place)
  | target (l : Link Value) : Part (link l) (ofTarget l.target)
  | sourcePort (l : Link Value) : Part (link l) (port l.sourcePort)
  | nodeLink {n : Node Value} {l : Link Value} : l ∈ n.links → Part (node n) (link l)
  | graphNode {g : Graph Value} {n : Node Value} : n ∈ g.nodes → Part (graph g) (node n)
  | subgraph {g s : Graph Value} : s ∈ g.subgraphs → Part (graph g) (graph s)
  | graphLink {g : Graph Value} {l : Link Value} : l ∈ g.links → Part (graph g) (link l)
  | viewed (i : Nat) (g : Graph Value) (slot : GraphTable) : Part (graphView i g slot) (graph g)

/-- The identity number of a node, link or graph. -/
def elementIdent? : Value → Option Nat
  | node n => some n.ident
  | link l => some l.ident
  | graph g => some g.ident
  | _ => Option.none

/-- The identity number of an element or an endpoint. -/
def number? : Value → Option Nat
  | point p => some p.ident
  | v => v.elementIdent?

theorem number?_of_elementIdent? {v : Value} {i : Nat} (h : v.elementIdent? = some i) :
    v.number? = some i := by
  cases v <;> first | exact h | cases h

/-- What a value has to be of itself, whatever its parts are: the index of a graph has to fit. -/
def WellMade (v : Value) : Prop := ∀ g, v = graph g → g.Indexed

end Value

/-! ## Registries -/

/-- The elements and endpoints that may have a number. -/
abbrev Registry := Nat → Value → Prop

namespace Registry

variable {σ τ : Registry} {v w : Value}

/-- The registry has every element and endpoint in the value, the value included. -/
def Knows (σ : Registry) (v : Value) : Prop :=
  ∀ w, Relation.ReflTransGen Value.Part v w → ∀ i, w.number? = some i → σ i w

/-- All that is recorded is well made. -/
def Sound (σ : Registry) : Prop := ∀ i v, σ i v → v.WellMade

/-- One more element under a number. -/
def record (σ : Registry) (n : Nat) (v : Value) : Registry := fun i w => σ i w ∨ (i = n ∧ w = v)

theorem le_record (σ : Registry) (n : Nat) (v : Value) : σ ≤ σ.record n v := fun _ _ h => .inl h

theorem Sound.mono (h : σ ≤ τ) (hτ : τ.Sound) : σ.Sound := fun i v hv => hτ i v (h i v hv)

theorem Knows.mono (h : σ ≤ τ) (hv : σ.Knows v) : τ.Knows v :=
  fun w hw i hi => h i w (hv w hw i hi)

theorem Knows.part (hv : σ.Knows v) (h : Value.Part v w) : σ.Knows w :=
  fun u hu => hv u (.head h hu)

/-- A value is known if it is recorded, should it have a number, and its parts are known. -/
theorem Knows.intro (hi : ∀ i, v.number? = some i → σ i v)
    (hparts : ∀ w, Value.Part v w → σ.Knows w) : σ.Knows v := by
  intro w hw
  rcases Relation.ReflTransGen.cases_head hw with rfl | ⟨u, hu, huw⟩
  · exact hi
  · exact hparts u hu w huw

theorem Knows.of_parts (hv : v.number? = none) (hparts : ∀ w, Value.Part v w → σ.Knows w) :
    σ.Knows v :=
  .intro (fun i hi => by rw [hv] at hi; cases hi) hparts

/-- A new element with known parts is known once it is recorded. -/
theorem Knows.record {n : Nat} (hi : v.number? = some n)
    (hparts : ∀ w, Value.Part v w → σ.Knows w) : (σ.record n v).Knows v := by
  apply Knows.intro
  · intro i h
    rw [hi] at h
    exact .inr ⟨(Option.some.inj h).symm, rfl⟩
  · exact fun w hw => (hparts w hw).mono (σ.le_record n v)

/-- A known graph is well made if all that is recorded is. -/
theorem Knows.indexed {g : Graph Value} (h : σ.Knows (.graph g)) (hσ : σ.Sound) : g.Indexed :=
  hσ _ _ (h _ .refl _ rfl) g rfl

/-! ## Values without a number -/

/-- Plain data have no parts. -/
theorem Knows.plain (hv : v.number? = none) (hparts : ∀ w, ¬ Value.Part v w) : σ.Knows v :=
  .of_parts hv fun w hw => absurd hw (hparts w)

theorem Knows.list {i : Nat} {items : List Value} (h : ∀ v ∈ items, σ.Knows v) :
    σ.Knows (.list i items) := by
  refine .of_parts rfl fun w hw => ?_
  cases hw with
  | item hw => exact h w hw

theorem Knows.map {i : Nat} {entries : List (Value × Value)}
    (h : ∀ e ∈ entries, σ.Knows e.1 ∧ σ.Knows e.2) : σ.Knows (.map i entries) := by
  refine .of_parts rfl fun w hw => ?_
  cases hw with
  | key he => exact (h _ he).1
  | entry he => exact (h _ he).2

theorem Knows.port {p : Port Value} (h : σ.Knows (.ofRecord p.record)) : σ.Knows (.port p) := by
  refine .of_parts rfl fun w hw => ?_
  cases hw with
  | record => exact h

theorem Knows.nowhere : σ.Knows (.port .nowhere) := .port (.plain rfl nofun)

/-- The registry has every endpoint there can be. -/
def HasPoints (σ : Registry) : Prop := ∀ p : NodePoint Value, σ p.ident (.point p)

theorem HasPoints.knows (hσ : σ.HasPoints) {p : NodePoint Value} (ha : σ.Knows (.ofAnchor p.anchor))
    (hp : σ.Knows (.ofPlace p.place)) : σ.Knows (.point p) := by
  refine .intro (fun i hi => ?_) fun w hw => ?_
  · cases hi
    exact hσ p
  · cases hw with
    | anchor => exact ha
    | place => exact hp

theorem Knows.graphView {g : Graph Value} (i : Nat) (slot : GraphTable) (h : σ.Knows (.graph g)) :
    σ.Knows (.graphView i g slot) := by
  refine .of_parts rfl fun w hw => ?_
  cases hw with
  | viewed => exact h

/-! ## Graphs under construction -/

/-- What can be made into a graph: its members and links are known, and its index fits. It need
not have a number of its own yet. -/
structure Draft (σ : Registry) (g : Graph Value) : Prop where
  parts : ∀ w, Value.Part (.graph g) w → σ.Knows w
  indexed : σ.Sound → g.Indexed

theorem Draft.mono {g : Graph Value} (h : σ ≤ τ) (hg : σ.Draft g) : τ.Draft g where
  parts w hw := (hg.parts w hw).mono h
  indexed hτ := hg.indexed (hτ.mono h)

theorem Knows.draft {g : Graph Value} (h : σ.Knows (.graph g)) : σ.Draft g where
  parts _ hw := h.part hw
  indexed hσ := h.indexed hσ

theorem draft_of {g : Graph Value} (hn : ∀ n ∈ g.nodes, σ.Knows (.node n))
    (hs : ∀ s ∈ g.subgraphs, σ.Knows (.graph s)) (hl : ∀ l ∈ g.links, σ.Knows (.link l))
    (hi : σ.Sound → g.Indexed) : σ.Draft g where
  parts w hw := by
    cases hw with
    | graphNode h => exact hn _ h
    | subgraph h => exact hs _ h
    | graphLink h => exact hl _ h
  indexed := hi

theorem Draft.node {g : Graph Value} (hg : σ.Draft g) {n : Node Value} (h : n ∈ g.nodes) :
    σ.Knows (.node n) :=
  hg.parts _ (.graphNode h)

theorem Draft.subgraph {g s : Graph Value} (hg : σ.Draft g) (h : s ∈ g.subgraphs) :
    σ.Knows (.graph s) :=
  hg.parts _ (.subgraph h)

theorem Draft.link {g : Graph Value} (hg : σ.Draft g) {l : Link Value} (h : l ∈ g.links) :
    σ.Knows (.link l) :=
  hg.parts _ (.graphLink h)

end Registry

end DotDoc
