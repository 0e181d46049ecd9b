import DotDoc.Graph.Merge

set_option autoImplicit false

/-!
# Link sources of a block

The block that is written for a graph shows everything that can be reached from
the graph's own nodes and subgraphs by following links: a link to an endpoint
leads to what the endpoint is anchored at, a link to a graph to that graph. The
members of a graph that is reached are not entered; they belong to that graph's
own block.

What is reached is collected depth first in the order in which it is declared,
each value once. Nodes of one name share an entry, which absorbs them in the
order of their visits. The collection stops at a source that links to a foreign
target, and at an anchor that is no source.

Main statement: `Graph.sizeOf_sources`, what the collected sources hold is
smaller than the graph.
-/

namespace DotDoc

variable {ρ : Type}

/-- Why a graph cannot be written: a link leads to a foreign target, an endpoint
is anchored at something foreign or has something foreign for its port, or a port
has a foreign record name. -/
inductive Unwritable (ρ : Type) where
  | target (t : ForeignTarget)
  | anchor (v : ρ)
  | place (v : ρ)
  | record (v : ρ)

/-- What makes two sources share an entry: nodes the name, graphs the identity. -/
inductive SourceKey where
  | node (name : Label)
  | graph (ident : Nat)
deriving DecidableEq

namespace Target

/-- What a target is anchored at. -/
def anchor? : Target ρ → Option (Anchor ρ)
  | point p => some p.anchor
  | graph g => some (.source (.graph g))
  | foreign _ => none

def foreign? : Target ρ → Option ForeignTarget
  | foreign t => some t
  | _ => none

end Target

namespace Source

def ident : Source ρ → Nat
  | node n => n.ident
  | graph g => g.ident

def links : Source ρ → List (Link ρ)
  | node n => n.links
  | graph g => g.links

def name : Source ρ → Label
  | node n => n.name
  | graph g => g.name

def key : Source ρ → SourceKey
  | node n => .node n.name
  | graph g => .graph g.ident

/-- Whether the source is a graph. -/
def isGraph : Source ρ → Bool
  | node _ => false
  | graph _ => true

/-- What the links lead to, in link order. -/
def successors (s : Source ρ) : List (Anchor ρ) := s.links.filterMap fun l => l.target.anchor?

/-- A foreign target among the links; the last one if there are several. -/
def foreign? (s : Source ρ) : Option ForeignTarget :=
  s.links.reverse.findSome? fun l => l.target.foreign?

/-- An entry with one more value of its key: nodes are absorbed, and a graph is
alone under its key. -/
def absorb : Source ρ → Source ρ → Source ρ
  | node a, node b => node (a.absorb b)
  | s, _ => s

/-- The size of a source, by which the collection ends. -/
noncomputable def weight : Source ρ → Nat
  | node n => sizeOf n
  | graph g => sizeOf g

end Source

namespace Anchor

/-- The entry of the source that is the anchor. -/
def key? : Anchor ρ → Option SourceKey
  | source s => some s.key
  | foreign _ => none

/-- The size of an anchor, by which the collection ends. -/
noncomputable def weight : Anchor ρ → Nat
  | source s => s.weight
  | foreign _ => 0

/-- The size of some anchors together. -/
noncomputable def totalWeight : List (Anchor ρ) → Nat
  | [] => 0
  | a :: rest => a.weight + totalWeight rest

theorem totalWeight_append (as bs : List (Anchor ρ)) :
    totalWeight (as ++ bs) = totalWeight as + totalWeight bs := by
  induction as with
  | nil => exact (Nat.zero_add _).symm
  | cons a rest ih =>
    simp only [List.cons_append, totalWeight, ih]
    omega

end Anchor

/-- The entry of the source that a target belongs to. -/
def Target.key? (t : Target ρ) : Option SourceKey := t.anchor?.bind Anchor.key?

/-! ## Following links makes smaller -/

theorem Anchor.weight_le (a : Anchor ρ) : a.weight ≤ sizeOf a := by
  cases a with
  | foreign v => exact Nat.zero_le _
  | source s =>
    cases s
    · simp only [Anchor.weight, Source.weight, Anchor.source.sizeOf_spec, Source.node.sizeOf_spec]
      omega
    · simp only [Anchor.weight, Source.weight, Anchor.source.sizeOf_spec, Source.graph.sizeOf_spec]
      omega

theorem Target.weight_anchor {t : Target ρ} {a : Anchor ρ} (h : t.anchor? = some a) :
    a.weight < sizeOf t := by
  cases t with
  | point p =>
    obtain ⟨i, b, place⟩ := p
    simp only [Target.anchor?, Option.some.injEq] at h
    subst h
    have := b.weight_le
    simp only [Target.point.sizeOf_spec, NodePoint.mk.sizeOf_spec]
    omega
  | graph g =>
    simp only [Target.anchor?, Option.some.injEq] at h
    subst h
    simp only [Anchor.weight, Source.weight, Target.graph.sizeOf_spec]
    omega
  | foreign t => simp [Target.anchor?] at h

theorem Link.sizeOf_target (l : Link ρ) : sizeOf l.target < sizeOf l := by
  cases l
  simp
  omega

theorem Link.totalWeight_le (ls : List (Link ρ)) :
    Anchor.totalWeight (ls.filterMap fun l => l.target.anchor?) ≤ sizeOf ls := by
  induction ls with
  | nil => exact Nat.zero_le _
  | cons l rest ih =>
    cases h : l.target.anchor? with
    | none =>
      simp only [List.filterMap_cons, h, List.cons.sizeOf_spec]
      omega
    | some a =>
      have ha := Target.weight_anchor h
      have hl := l.sizeOf_target
      simp only [List.filterMap_cons, h, Anchor.totalWeight, List.cons.sizeOf_spec]
      omega

theorem Source.sizeOf_links (s : Source ρ) : sizeOf s.links < s.weight := by
  cases s with
  | node n =>
    cases n
    simp only [Source.links, Source.weight, Node.mk.sizeOf_spec]
    omega
  | graph g =>
    cases g
    simp only [Source.links, Source.weight, Graph.mk.sizeOf_spec]
    omega

theorem Source.totalWeight_successors (s : Source ρ) :
    Anchor.totalWeight s.successors < s.weight :=
  Nat.lt_of_le_of_lt (Link.totalWeight_le s.links) s.sizeOf_links

theorem Source.weight_pos (s : Source ρ) : 0 < s.weight :=
  Nat.lt_of_le_of_lt (Nat.zero_le _) s.sizeOf_links

/-! ## Collecting -/

/-- The entries with one more source. -/
def recordSource (entries : Table SourceKey (Source ρ)) (s : Source ρ) :
    Table SourceKey (Source ρ) :=
  entries.set s.key (((entries.get? s.key).map fun known => known.absorb s).getD s)

/-- Visit what is pending from the front. What a source links to goes in front of
what is still pending. -/
def collectSources (pending : List (Anchor ρ)) (visited : List Nat)
    (entries : Table SourceKey (Source ρ)) : Except (Unwritable ρ) (Table SourceKey (Source ρ)) :=
  match pending with
  | [] => .ok entries
  | .foreign v :: _ => .error (.anchor v)
  | .source s :: rest =>
    if s.ident ∈ visited then collectSources rest visited entries
    else match s.foreign? with
      | some t => .error (.target t)
      | none => collectSources (s.successors ++ rest) (s.ident :: visited) (recordSource entries s)
termination_by Anchor.totalWeight pending
decreasing_by
  · have := s.weight_pos
    simp only [Anchor.totalWeight, Anchor.weight]
    omega
  · have := s.totalWeight_successors
    simp only [Anchor.totalWeight_append, Anchor.totalWeight, Anchor.weight]
    omega

/-! ## Collected sources are smaller than the graph -/

/-- All that a source holds is smaller than the bound, and so is the source if
it is a graph. -/
def Source.Within (bound : Nat) (s : Source ρ) : Prop :=
  (∀ l ∈ s.links, sizeOf l < bound) ∧ ∀ g, s = .graph g → sizeOf g < bound

theorem Source.within_of_weight {bound : Nat} {s : Source ρ} (h : s.weight < bound) :
    s.Within bound := by
  refine ⟨fun l hl => ?_, fun g hg => ?_⟩
  · have h1 := List.sizeOf_lt_of_mem hl
    have h2 := s.sizeOf_links
    omega
  · subst hg
    exact h

theorem Source.weight_of_mem_successors {s : Source ρ} {a : Anchor ρ} (h : a ∈ s.successors) :
    a.weight < s.weight := by
  obtain ⟨l, hl, ha⟩ := List.mem_filterMap.1 h
  have h1 := Target.weight_anchor ha
  have h2 := l.sizeOf_target
  have h3 := List.sizeOf_lt_of_mem hl
  have h4 := s.sizeOf_links
  omega

theorem Source.Within.absorb {bound : Nat} {s t : Source ρ} (hs : s.Within bound)
    (ht : t.Within bound) : (s.absorb t).Within bound := by
  cases s with
  | graph g => cases t <;> exact hs
  | node a =>
    cases t with
    | graph g => exact hs
    | node b =>
      refine ⟨fun l hl => ?_, fun g hg => nomatch hg⟩
      rcases List.mem_append.1 hl with hl | hl
      · exact hs.1 l hl
      · exact ht.1 l (List.mem_filter.1 hl).1

theorem within_recordSource {bound : Nat} {entries : Table SourceKey (Source ρ)} {s : Source ρ}
    (he : ∀ e ∈ entries.values, e.Within bound) (hs : s.Within bound) :
    ∀ e ∈ (recordSource entries s).values, e.Within bound := by
  intro e h
  rcases Table.mem_values_set h with rfl | h
  · cases hk : entries.get? s.key with
    | none => exact hs
    | some known => exact (he known (Table.mem_values_of_get? hk)).absorb hs
  · exact he e h

theorem within_collectSources {bound : Nat} (pending : List (Anchor ρ)) (visited : List Nat)
    (entries : Table SourceKey (Source ρ)) (hp : ∀ a ∈ pending, a.weight < bound)
    (he : ∀ e ∈ entries.values, e.Within bound) {result : Table SourceKey (Source ρ)}
    (h : collectSources pending visited entries = .ok result) :
    ∀ e ∈ result.values, e.Within bound := by
  fun_induction collectSources pending visited entries with
  | case1 => cases h; exact he
  | case2 => cases h
  | case3 visited entries s rest hv ih =>
    exact ih (fun a ha => hp a (List.mem_cons_of_mem _ ha)) he h
  | case4 => cases h
  | case5 visited entries s rest hv hf ih =>
    have hs : s.weight < bound := hp (.source s) List.mem_cons_self
    refine ih (fun a ha => ?_) (within_recordSource he (Source.within_of_weight hs)) h
    rcases List.mem_append.1 ha with ha | ha
    · exact Nat.lt_trans (Source.weight_of_mem_successors ha) hs
    · exact hp a (List.mem_cons_of_mem _ ha)

namespace Graph

/-- The sources that a graph declares: its nodes, then its subgraphs. -/
def declared (g : Graph ρ) : List (Source ρ) := g.nodes.map .node ++ g.subgraphs.map .graph

/-- The link sources of the block that is written for a graph. -/
def sources (g : Graph ρ) : Except (Unwritable ρ) (List (Source ρ)) :=
  (collectSources (g.declared.map .source) [] ∅).map Table.values

theorem weight_declared {g : Graph ρ} {s : Source ρ} (h : s ∈ g.declared) :
    s.weight < sizeOf g := by
  rcases List.mem_append.1 h with h | h
  · obtain ⟨n, hn, rfl⟩ := List.mem_map.1 h
    exact g.sizeOf_node hn
  · obtain ⟨t, ht, rfl⟩ := List.mem_map.1 h
    exact g.sizeOf_subgraph ht

/-- The links of the collected sources, and the collected graphs, are smaller
than the graph whose block they belong to. -/
theorem sizeOf_sources {g : Graph ρ} {ss : List (Source ρ)} (h : g.sources = .ok ss) :
    ∀ s ∈ ss, s.Within (sizeOf g) := by
  unfold sources at h
  cases hc : collectSources (g.declared.map .source) [] ∅ with
  | error e => simp [hc, Except.map] at h
  | ok t =>
    simp only [hc, Except.map, Except.ok.injEq] at h
    subst h
    refine within_collectSources _ _ _ (fun a ha => ?_) (fun e he => absurd he List.not_mem_nil) hc
    obtain ⟨s, hs, rfl⟩ := List.mem_map.1 ha
    exact weight_declared hs

end Graph

end DotDoc
