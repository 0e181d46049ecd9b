import DotDoc.Proofs.Graph.Visits

set_option autoImplicit false

/-!
# The rounds of a collection

The sources of a block are collected in a loop: each round takes what is pending first, and passes
it over if it was entered already (`Collection.round`). So the same source may be pending many
times, and no round need make less of what is pending. Yet the loop ends: every round uses up either
a declared source or one link of a source that was entered, and no source is entered twice
(`Graph.collectsOnce`).
-/

namespace DotDoc

variable {ρ : Type}

theorem Source.exists_visitAll_eq (seen p : List (Source ρ)) :
    ∃ new, visitAll seen p = seen ++ new := by
  fun_induction visitAll seen p with
  | case1 seen => exact ⟨[], (List.append_nil seen).symm⟩
  | case2 seen s rest _ ih => exact ih
  | case3 seen s rest _ ih1 ih2 =>
      obtain ⟨new₁, h₁⟩ := ih1
      obtain ⟨new₂, h₂⟩ := ih2
      rw [h₁] at h₂ ⊢
      exact ⟨s :: (new₁ ++ new₂), by rw [h₂]; simp⟩

/-! ## One round -/

/-- A collection that is under way: what is pending, the numbers of the sources that were entered,
the latest first, and the entries so far. -/
structure Collection (ρ : Type) where
  pending : List (Anchor ρ)
  visited : List Nat
  entries : Table SourceKey (Source ρ)

namespace Collection

/-- What becomes of the collection. -/
def result (c : Collection ρ) : Except (Unwritable ρ) (Table SourceKey (Source ρ)) :=
  collectSources c.pending c.visited c.entries

/-- Take what is pending first, and enter it if it was not entered before. -/
def round (c : Collection ρ) : Except (Unwritable ρ) (Collection ρ) :=
  match c.pending with
  | [] => .ok c
  | .foreign v :: _ => .error (.anchor v)
  | .source s :: rest =>
    if s.ident ∈ c.visited then .ok { c with pending := rest }
    else match s.foreign? with
      | some t => .error (.target t)
      | none => .ok ⟨s.successors ++ rest, s.ident :: c.visited, recordSource c.entries s⟩

/-- What a round can do. -/
inductive Goes (c : Collection ρ) : Except (Unwritable ρ) (Collection ρ) → Prop
  | done (h : c.pending = []) : Goes c (.ok c)
  | failed (e : Unwritable ρ) (h : c.result = .error e) : Goes c (.error e)
  | passed (s : Source ρ) (rest : List (Anchor ρ)) (h : c.pending = .source s :: rest)
    (hs : s.ident ∈ c.visited) : Goes c (.ok { c with pending := rest })
  | entered (s : Source ρ) (rest : List (Anchor ρ)) (h : c.pending = .source s :: rest)
    (hs : s.ident ∉ c.visited) (hf : s.foreign? = none) :
    Goes c (.ok ⟨s.successors ++ rest, s.ident :: c.visited, recordSource c.entries s⟩)

theorem goes_round (c : Collection ρ) : c.Goes c.round := by
  obtain ⟨pending, visited, entries⟩ := c
  cases pending with
  | nil => exact .done rfl
  | cons a rest =>
      cases a with
      | foreign v => exact .failed _ (by rw [result, collectSources])
      | source s =>
          show Goes _ (if s.ident ∈ visited then .ok ⟨rest, visited, entries⟩
            else match s.foreign? with
              | some t => .error (.target t)
              | none => .ok ⟨s.successors ++ rest, s.ident :: visited, recordSource entries s⟩)
          by_cases hs : s.ident ∈ visited
          · rw [if_pos hs]
            exact .passed s rest rfl hs
          · rw [if_neg hs]
            cases hf : s.foreign? with
            | some t =>
                refine .failed _ ?_
                rw [result, collectSources, if_neg hs, hf]
            | none => exact .entered s rest rfl hs hf

/-- A round does not change what becomes of the collection. -/
theorem result_eq_round (c : Collection ρ) : c.result = c.round >>= result := by
  have h := c.goes_round
  generalize c.round = x at h ⊢
  cases h with
  | done h => rfl
  | failed e h => exact h
  | passed s rest h hs =>
      show c.result = collectSources rest c.visited c.entries
      rw [result, h, collectSources, if_pos hs]
  | entered s rest h hs hf =>
      show c.result = collectSources _ _ _
      rw [result, h, collectSources, if_neg hs, hf]

/-- No source is entered twice. -/
theorem nodup_round {c c' : Collection ρ} (h : c.round = .ok c') (hc : c.visited.Nodup) :
    c'.visited.Nodup := by
  have hgoes := c.goes_round
  rw [h] at hgoes
  cases hgoes with
  | done _ => exact hc
  | passed _ _ _ _ => exact hc
  | entered s rest _ hs _ => exact List.nodup_cons.2 ⟨hs, hc⟩

/-! ## Many rounds -/

/-- A number of rounds. -/
def rounds : Nat → Collection ρ → Except (Unwritable ρ) (Collection ρ)
  | 0, c => .ok c
  | n + 1, c => c.round >>= rounds n

theorem result_eq_rounds (n : Nat) (c : Collection ρ) : c.result = c.rounds n >>= result := by
  induction n generalizing c with
  | zero => rfl
  | succ n ih =>
      rw [rounds, result_eq_round]
      cases c.round with
      | error e => rfl
      | ok c' => exact ih c'

theorem nodup_rounds {n : Nat} {c c' : Collection ρ} (h : c.rounds n = .ok c')
    (hc : c.visited.Nodup) : c'.visited.Nodup := by
  induction n generalizing c with
  | zero =>
      cases h
      exact hc
  | succ n ih =>
      rw [rounds] at h
      cases hr : c.round with
      | error e =>
          rw [hr] at h
          cases h
      | ok d =>
          rw [hr] at h
          exact ih h (nodup_round hr hc)

/-- How many links some sources hold. -/
def linkCount (ss : List (Source ρ)) : Nat := (ss.flatMap Source.links).length

/-- The sources that are still to be entered, when these were. -/
def Enters (c : Collection ρ) (seen new : List (Source ρ)) : Prop :=
  (∀ i, i ∈ c.visited ↔ i ∈ Source.idents seen) ∧
    Source.visitAll seen (c.pending.filterMap Anchor.source?) = seen ++ new

theorem Enters.eq_nil {c : Collection ρ} {seen new : List (Source ρ)} (h : c.Enters seen new)
    (hp : c.pending = []) : new = [] := by
  have hnew := h.2
  rw [hp, List.filterMap_nil, Source.visitAll_nil] at hnew
  exact List.append_cancel_left (hnew.symm.trans (List.append_nil seen).symm)

/-- When a source is passed over, the same are still to be entered. -/
theorem Enters.passed {c : Collection ρ} {seen new : List (Source ρ)} (h : c.Enters seen new)
    {s : Source ρ} {rest : List (Anchor ρ)} (hp : c.pending = .source s :: rest)
    (hs : s.ident ∈ c.visited) : Enters { c with pending := rest } seen new := by
  obtain ⟨hseen, hnew⟩ := h
  rw [hp, List.filterMap_cons_some (show Anchor.source? (.source s) = some s from rfl),
    Source.visitAll_cons_of_mem _ ((hseen _).1 hs)] at hnew
  exact ⟨hseen, hnew⟩

/-- When a source is entered, it was the first of these. -/
theorem Enters.entered {c : Collection ρ} {seen new : List (Source ρ)} (h : c.Enters seen new)
    {s : Source ρ} {rest : List (Anchor ρ)} (hp : c.pending = .source s :: rest)
    (hs : s.ident ∉ c.visited) (entries : Table SourceKey (Source ρ)) :
    ∃ new', new = s :: new' ∧
      Enters ⟨s.successors ++ rest, s.ident :: c.visited, entries⟩ (seen ++ [s]) new' := by
  obtain ⟨hseen, hnew⟩ := h
  -- what the source links to is visited before the rest
  obtain ⟨new', hnew'⟩ := Source.exists_visitAll_eq (seen ++ [s])
    ((s.successors ++ rest).filterMap Anchor.source?)
  refine ⟨new', ?_, fun i => ?_, hnew'⟩
  · rw [hp, List.filterMap_cons_some (show Anchor.source? (.source s) = some s from rfl),
      Source.visitAll_cons_of_notMem _ fun hm => hs ((hseen _).2 hm), ← Source.visitAll_append,
      Source.linked, ← List.filterMap_append, hnew', List.append_assoc] at hnew
    exact (List.append_cancel_left hnew).symm
  · simp [hseen, Source.idents, or_comm]

/-- **There is nothing pending after as many rounds as things were pending and the sources that are
entered have links.** -/
theorem ended_rounds {n : Nat} {c c' : Collection ρ} (h : c.rounds n = .ok c')
    {seen new : List (Source ρ)} (henters : c.Enters seen new)
    (hn : c.pending.length + linkCount new ≤ n) :
    c'.pending = [] ∧ c'.visited = (Source.idents new).reverse ++ c.visited := by
  -- what is pending may grow in a round, but then the links of the entered source are used up
  induction n generalizing c seen new with
  | zero =>
      have hp : c.pending = [] := List.length_eq_zero_iff.1 (by omega)
      cases h
      rw [henters.eq_nil hp]
      exact ⟨hp, rfl⟩
  | succ n ih =>
      rw [rounds] at h
      have hgoes := c.goes_round
      generalize c.round = x at h hgoes
      cases hgoes with
      | failed e _ => cases h
      | done hp =>
          refine ih h henters ?_
          rw [henters.eq_nil hp, hp]
          exact Nat.zero_le n
      | passed s rest hp hs =>
          refine ih h (henters.passed hp hs) ?_
          rw [hp, List.length_cons] at hn
          show rest.length + _ ≤ n
          omega
      | entered s rest hp hs hf =>
          obtain ⟨new', rfl, henters'⟩ := henters.entered hp hs (recordSource c.entries s)
          have hlen : s.successors.length ≤ s.links.length := List.length_filterMap_le _ _
          obtain ⟨hpend, hvisited⟩ := ih h henters' (by
            rw [hp, List.length_cons] at hn
            show (s.successors ++ rest).length + linkCount new' ≤ n
            rw [List.length_append]
            simp only [linkCount, List.flatMap_cons, List.length_append] at hn ⊢
            omega)
          refine ⟨hpend, hvisited.trans ?_⟩
          simp [Source.idents]

end Collection

/-! ## The collection for a block -/

namespace Graph

/-- The collection for the block of a graph, before the first round. -/
def collection (g : Graph ρ) : Collection ρ := ⟨g.declared.map .source, [], ∅⟩

/-- How many rounds it takes at most: one for each declared source, and one for each link of a
source that is entered. -/
def roundBound (g : Graph ρ) : Nat := g.declared.length + Collection.linkCount g.visits

/-- The collection for the block of a graph ends, and it enters each source at most once. -/
structure CollectsOnce (g : Graph ρ) : Prop where
  once : ∀ n c, g.collection.rounds n = .ok c → c.visited.Nodup
  ends : ∀ n, g.roundBound ≤ n → ∀ c, g.collection.rounds n = .ok c →
    c.pending = [] ∧ c.visited.reverse = Source.idents g.visits
  result : ∀ n, g.roundBound ≤ n →
    g.sources = (g.collection.rounds n).map fun c => c.entries.values

theorem collectsOnce (g : Graph ρ) : g.CollectsOnce := by
  have hends : ∀ n, g.roundBound ≤ n → ∀ c, g.collection.rounds n = .ok c →
      c.pending = [] ∧ c.visited.reverse = Source.idents g.visits := by
    intro n hn c hc
    have hdecl : (g.declared.map Anchor.source).filterMap Anchor.source? = g.declared := by
      rw [List.filterMap_map]
      exact List.filterMap_some
    have henters : g.collection.Enters [] g.visits := by
      refine ⟨fun i => Iff.rfl, ?_⟩
      rw [collection, hdecl, visits, List.nil_append]
    obtain ⟨hp, hv⟩ := Collection.ended_rounds hc henters (by
      rw [collection, List.length_map]
      exact hn)
    refine ⟨hp, ?_⟩
    rw [hv]
    simp [collection]
  refine ⟨fun n c hc => Collection.nodup_rounds hc List.nodup_nil, hends, fun n hn => ?_⟩
  -- after these rounds nothing is pending, so the collection gives what it has
  have hresult := Collection.result_eq_rounds n g.collection
  show g.collection.result.map Table.values = _
  rw [hresult]
  cases hc : g.collection.rounds n with
  | error e => rfl
  | ok c =>
      show c.result.map Table.values = _
      rw [Collection.result, (hends n hn c hc).1, collectSources]
      rfl

end Graph

end DotDoc
