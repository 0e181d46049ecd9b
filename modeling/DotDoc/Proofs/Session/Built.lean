import DotDoc.Proofs.Graph.Reach
import DotDoc.Proofs.Session.Runs

set_option autoImplicit false

/-!
# Graphs that a session builds

A graph is built if some session stores it under a name (`Graph.Built`). All that is recorded of the
elements of a session is exact: no number belongs to two of them (`Registry.Exact`). So a built
graph is coherent (`Graph.Built.coherent`).
-/

namespace DotDoc

/-- A registry is exact up to a number if all its numbers are below that one, no number has two
elements, and all elements are well made. -/
structure Registry.Exact (σ : Registry) (n : Nat) : Prop where
  below : ∀ {i v}, σ i v → i < n
  unique : ∀ {i v w}, σ i v → σ i w → v = w
  sound : σ.Sound

theorem Registry.keeps_exact : Registry.Keeps Registry.Exact where
  skip h := ⟨fun hv => Nat.lt_succ_of_lt (h.below hv), h.unique, h.sound⟩
  record {σ n v} h _ hv := by
    -- the next number is not in use
    have hfresh : ∀ {w}, ¬ σ n w := fun hw => Nat.lt_irrefl n (h.below hw)
    constructor
    · rintro i w (hw | ⟨rfl, -⟩)
      · exact Nat.lt_succ_of_lt (h.below hw)
      · exact Nat.lt_succ_self _
    · rintro i w u (hw | ⟨rfl, rfl⟩) (hu | ⟨hi, rfl⟩)
      · exact h.unique hw hu
      · exact absurd (hi ▸ hw) hfresh
      · exact absurd hu hfresh
      · rfl
    · rintro i w (hw | ⟨-, rfl⟩)
      · exact h.sound i w hw
      · exact hv h.sound

/-- What a flow comes to from the beginning is known to an exact registry. -/
theorem Flow.Later.exact {f : Flow} (h : Flow.Later Flow.initial f) :
    ∃ σ, f.Known Registry.Exact σ := by
  have hinit : Flow.initial.Known Registry.Exact fun _ _ => False := by
    constructor
    · exact ⟨fun h => h.elim, fun h => h.elim, fun _ _ h => h.elim⟩
    · intro n v hv
      cases hv
  obtain ⟨σ, -, hσ⟩ := h.known Registry.keeps_exact _ hinit
  exact ⟨σ, hσ⟩

/-- The source as a value. -/
def Source.toValue (s : Source Value) : Value := .ofAnchor (.source s)

theorem Source.toValue_injective {s t : Source Value} (h : s.toValue = t.toValue) : s = t := by
  cases s <;> cases t <;> cases h <;> rfl

theorem Source.number?_toValue (s : Source Value) : s.toValue.number? = some s.ident := by
  cases s <;> rfl

theorem Source.part_link {s : Source Value} {l : Link Value} (hl : l ∈ s.links) :
    s.toValue.Part (.link l) := by
  cases s with
  | node n => exact .nodeLink hl
  | graph g => exact .graphLink hl

/-- A part of a source is found in it as a value. -/
theorem Source.HasPart.parts {s t : Source Value} (h : s.HasPart t) :
    Relation.TransGen Value.Part s.toValue t.toValue := by
  rcases h with h | ⟨l, hl, hanchor⟩
  · cases s with
    | node n => exact absurd h List.not_mem_nil
    | graph g =>
        rcases List.mem_append.1 h with h | h
        · obtain ⟨n, hn, rfl⟩ := List.mem_map.1 h
          exact .single (.graphNode hn)
        · obtain ⟨k, hk, rfl⟩ := List.mem_map.1 h
          exact .single (.subgraph hk)
  · have htarget : Relation.TransGen Value.Part s.toValue (.ofTarget l.target) :=
      .tail (.single (Source.part_link hl)) (.target l)
    generalize l.target = target at hanchor htarget
    cases target with
    | foreign t => cases hanchor
    | graph g =>
        cases hanchor
        exact htarget
    | point p =>
        have hp := htarget.tail (.anchor p)
        rw [Option.some.inj hanchor] at hp
        exact hp

/-- What is found in a known value is known. -/
theorem Registry.Knows.parts {σ : Registry} {v w : Value} (hv : σ.Knows v)
    (h : Relation.ReflTransGen Value.Part v w) : σ.Knows w :=
  fun u hu => hv u (h.trans hu)

/-- Parts of a known source are known. -/
theorem Source.HasPart.knows {σ : Registry} {s t : Source Value} (h : s.HasPart t)
    (hs : σ.Knows s.toValue) : σ.Knows t.toValue :=
  hs.parts h.parts.to_reflTransGen

namespace Graph

/-- Some session stores the graph under a name. -/
def Built (g : Graph Value) : Prop :=
  ∃ (steps : List Step) (name : String),
    ((runAll steps).run Flow.initial).2.names.get? name = some (.graph g)

theorem Built.exists_registry {g : Graph Value} (hg : g.Built) :
    ∃ σ n, Registry.Exact σ n ∧ σ.Knows (.graph g) := by
  obtain ⟨steps, name, hname⟩ := hg
  obtain ⟨σ, hσ⟩ := (Flow.later_runAll steps Flow.initial).exact
  exact ⟨σ, _, hσ.kept, hσ.names name _ hname⟩

theorem Holds.knows {σ : Registry} {g : Graph Value} {s : Source Value} (h : g.Holds s)
    (hg : σ.Knows (.graph g)) : σ.Knows s.toValue := by
  induction h with
  | refl => exact hg
  | tail _ hpart ih => exact hpart.knows ih

/-- **In a built graph an identity number belongs to one source and to one link.** -/
theorem Built.coherent {g : Graph Value} (hg : g.Built) : g.Coherent := by
  obtain ⟨σ, n, hσ, hknows⟩ := hg.exists_registry
  -- all that the graph holds is recorded, and nothing else under the same number
  have hrec : ∀ {s : Source Value}, g.Holds s → σ s.ident s.toValue := fun {s} hs =>
    hs.knows hknows s.toValue .refl s.ident s.number?_toValue
  have hlink : ∀ {s : Source Value} {l : Link Value}, g.Holds s → l ∈ s.links →
      σ l.ident (.link l) := fun hs hl =>
    (hs.knows hknows).part (Source.part_link hl) _ .refl _ rfl
  constructor
  · intro s t hs ht hi
    have h := hrec hs
    rw [hi] at h
    exact Source.toValue_injective (hσ.unique h (hrec ht))
  · intro s t l m hs ht hl hm hi
    have h := hlink hs hl
    rw [hi] at h
    exact Value.link.inj (hσ.unique h (hlink ht hm))

/-- All graphs that a built graph holds find their nodes and subgraphs by their names. -/
theorem Built.indexed_of_holds {g k : Graph Value} (hg : g.Built) (hk : g.Holds (.graph k)) :
    k.Indexed := by
  obtain ⟨σ, n, hσ, hknows⟩ := hg.exists_registry
  have hkk : σ.Knows (.graph k) := hk.knows hknows
  exact hkk.indexed hσ.sound

end Graph

end DotDoc
