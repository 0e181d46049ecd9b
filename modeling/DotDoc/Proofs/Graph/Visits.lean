import DotDoc.Proofs.Graph.Reach

set_option autoImplicit false

/-!
# The order of first visits

A visit of pending sources goes from left to right. It enters each source once and follows the
links of a source before it goes on (`Source.visitAll`). This is a recursion, where the collection
of link sources keeps a list of what is pending. Both meet the same sources in the same order:
`Graph.sources_eq` says that the collected sources are what one gets from recording the visited
ones in turn.

In a coherent graph exactly the reached sources are visited (`Graph.mem_visits`), each once
(`Graph.nodup_visits`).
-/

namespace DotDoc

variable {ρ : Type}

/-- The source that is the anchor, if it is one. -/
def Anchor.source? : Anchor ρ → Option (Source ρ)
  | source s => some s
  | foreign _ => none

namespace Source

/-- The sources that the links lead to, in link order. -/
def linked (s : Source ρ) : List (Source ρ) := s.successors.filterMap Anchor.source?

theorem mem_linked {s t : Source ρ} : t ∈ s.linked ↔ s.LinksTo t := by
  rw [linksTo_iff, linked, List.mem_filterMap]
  constructor
  · rintro ⟨a, ha, hsome⟩
    cases a with
    | foreign v => cases hsome
    | source u =>
        cases hsome
        exact ha
  · exact fun h => ⟨.source t, h, rfl⟩

theorem totalWeight_linked (s : Source ρ) :
    Anchor.totalWeight (s.linked.map .source) < s.weight := by
  have key : ∀ l : List (Anchor ρ),
      Anchor.totalWeight ((l.filterMap Anchor.source?).map .source) ≤ Anchor.totalWeight l := by
    intro l
    induction l with
    | nil => exact Nat.le_refl _
    | cons a rest ih =>
        cases a with
        | foreign v => exact Nat.le_trans ih (Nat.le_add_left _ _)
        | source u => exact Nat.add_le_add_left ih _
  exact Nat.lt_of_le_of_lt (key s.successors) s.totalWeight_successors

/-- The identity numbers of some sources. -/
def idents (ss : List (Source ρ)) : List Nat := ss.map ident

/-- Visit the pending sources from left to right. A source that was seen already is passed over;
any other one is entered, and what it links to is visited before the rest. -/
def visitAll (seen : List (Source ρ)) : List (Source ρ) → List (Source ρ)
  | [] => seen
  | s :: rest =>
    if s.ident ∈ idents seen then visitAll seen rest
    else visitAll (visitAll (seen ++ [s]) s.linked) rest
termination_by pending => Anchor.totalWeight (pending.map .source)
decreasing_by
  · have := s.weight_pos
    simp only [List.map_cons, Anchor.totalWeight, Anchor.weight]
    omega
  · have := s.totalWeight_linked
    simp only [List.map_cons, Anchor.totalWeight, Anchor.weight]
    omega
  · have := s.weight_pos
    simp only [List.map_cons, Anchor.totalWeight, Anchor.weight]
    omega

@[simp] theorem visitAll_nil (seen : List (Source ρ)) : visitAll seen [] = seen := by
  rw [visitAll]

theorem visitAll_cons_of_mem {seen : List (Source ρ)} {s : Source ρ} (rest : List (Source ρ))
    (h : s.ident ∈ idents seen) : visitAll seen (s :: rest) = visitAll seen rest := by
  rw [visitAll, if_pos h]

theorem visitAll_cons_of_notMem {seen : List (Source ρ)} {s : Source ρ} (rest : List (Source ρ))
    (h : s.ident ∉ idents seen) :
    visitAll seen (s :: rest) = visitAll (visitAll (seen ++ [s]) s.linked) rest := by
  rw [visitAll, if_neg h]

theorem visitAll_append (seen p q : List (Source ρ)) :
    visitAll seen (p ++ q) = visitAll (visitAll seen p) q := by
  fun_induction visitAll seen p with
  | case1 seen => rfl
  | case2 seen s rest h ih =>
      rw [List.cons_append, visitAll_cons_of_mem _ h, ih]
  | case3 seen s rest h _ ih =>
      rw [List.cons_append, visitAll_cons_of_notMem _ h, ih]

/-! ## What is seen after a visit -/

theorem subset_visitAll (seen p : List (Source ρ)) : seen ⊆ visitAll seen p := by
  fun_induction visitAll seen p with
  | case1 seen => exact fun _ h => h
  | case2 seen s rest h ih => exact ih
  | case3 seen s rest h ih1 ih2 =>
      exact fun x hx => ih2 (ih1 (List.mem_append_left [s] hx))

/-- What was pending is seen afterwards. -/
theorem ident_mem_visitAll (seen p : List (Source ρ)) :
    ∀ s ∈ p, s.ident ∈ idents (visitAll seen p) := by
  fun_induction visitAll seen p with
  | case1 seen => exact fun s hs => absurd hs List.not_mem_nil
  | case2 seen s rest h ih =>
      intro t ht
      rcases List.mem_cons.1 ht with rfl | ht
      · exact List.map_subset _ (subset_visitAll seen rest) h
      · exact ih t ht
  | case3 seen s rest h ih1 ih2 =>
      intro t ht
      rcases List.mem_cons.1 ht with rfl | ht
      · refine List.mem_map_of_mem (subset_visitAll _ rest (subset_visitAll _ t.linked ?_))
        exact List.mem_append_right seen List.mem_cons_self
      · exact ih2 t ht

/-- What a newly entered source links to is seen afterwards as well. -/
theorem linked_mem_visitAll (seen p : List (Source ρ)) :
    ∀ s ∈ visitAll seen p, s ∈ seen ∨ ∀ t ∈ s.linked, t.ident ∈ idents (visitAll seen p) := by
  fun_induction visitAll seen p with
  | case1 seen => exact fun s hs => .inl hs
  | case2 seen s rest h ih => exact ih
  | case3 seen s rest h ih1 ih2 =>
      -- what is seen after the links of `s` is still seen after the rest
      intro x hx
      have hup : ∀ i, i ∈ idents (visitAll (seen ++ [s]) s.linked) →
          i ∈ idents (visitAll (visitAll (seen ++ [s]) s.linked) rest) :=
        fun i hi => List.map_subset _ (subset_visitAll _ rest) hi
      rcases ih2 x hx with hx | hx
      · rcases ih1 x hx with hx | hx
        · rcases List.mem_append.1 hx with hx | hx
          · exact .inl hx
          · obtain rfl := List.mem_singleton.1 hx
            exact .inr fun t ht => hup _ (ident_mem_visitAll _ _ t ht)
        · exact .inr fun t ht => hup _ (hx t ht)
      · exact .inr hx

/-- A property that links hand on holds of all that is seen if it holds of the pending sources. -/
theorem forall_visitAll {P : Source ρ → Prop} (hP : ∀ s t, P s → s.LinksTo t → P t)
    (seen p : List (Source ρ)) (hseen : ∀ s ∈ seen, P s) (hp : ∀ s ∈ p, P s) :
    ∀ s ∈ visitAll seen p, P s := by
  fun_induction visitAll seen p with
  | case1 seen => exact hseen
  | case2 seen s rest h ih => exact ih hseen fun t ht => hp t (List.mem_cons_of_mem s ht)
  | case3 seen s rest h ih1 ih2 =>
      have hs : P s := hp s List.mem_cons_self
      apply ih2
      · apply ih1
        · intro t ht
          rcases List.mem_append.1 ht with ht | ht
          · exact hseen t ht
          · exact List.mem_singleton.1 ht ▸ hs
        · exact fun t ht => hP s t hs (mem_linked.1 ht)
      · exact fun t ht => hp t (List.mem_cons_of_mem s ht)

/-- No identity number is seen twice. -/
theorem nodup_visitAll (seen p : List (Source ρ)) (h : (idents seen).Nodup) :
    (idents (visitAll seen p)).Nodup := by
  fun_induction visitAll seen p with
  | case1 seen => exact h
  | case2 seen s rest _ ih => exact ih h
  | case3 seen s rest hs ih1 ih2 =>
      apply ih2
      apply ih1
      rw [idents, List.map_append, List.nodup_append]
      refine ⟨h, List.pairwise_singleton _ _, ?_⟩
      intro a ha b hb
      rw [List.map_singleton, List.mem_singleton] at hb
      subst hb
      exact fun e => hs (e ▸ ha)

end Source

/-! ## Collecting is visiting -/

/-- A collection that goes through records the sources that a visit of what is pending adds. -/
theorem collectSources_eq_visitAll (pending : List (Anchor ρ)) (visited : List Nat)
    (entries : Table SourceKey (Source ρ)) (seen : List (Source ρ))
    (hseen : ∀ i, i ∈ visited ↔ i ∈ Source.idents seen)
    {result : Table SourceKey (Source ρ)} (h : collectSources pending visited entries = .ok result) :
    ∃ new, Source.visitAll seen (pending.filterMap Anchor.source?) = seen ++ new ∧
      result = new.foldl recordSource entries := by
  -- the pending sources of the visit are those among the pending anchors
  fun_induction collectSources pending visited entries generalizing seen with
  | case1 visited entries =>
      cases h
      exact ⟨[], by simp, rfl⟩
  | case2 => cases h
  | case3 visited entries s rest hv ih =>
      obtain ⟨new, h1, h2⟩ := ih seen hseen h
      refine ⟨new, ?_, h2⟩
      rw [List.filterMap_cons_some (show Anchor.source? (.source s) = some s from rfl),
        Source.visitAll_cons_of_mem _ ((hseen _).1 hv), h1]
  | case4 => cases h
  | case5 visited entries s rest hv hf ih =>
      have hseen' : ∀ i, i ∈ s.ident :: visited ↔ i ∈ Source.idents (seen ++ [s]) := by
        intro i
        simp [hseen, Source.idents, or_comm]
      obtain ⟨new, h1, h2⟩ := ih (seen ++ [s]) hseen' h
      refine ⟨s :: new, ?_, h2⟩
      rw [List.filterMap_cons_some (show Anchor.source? (.source s) = some s from rfl),
        Source.visitAll_cons_of_notMem _ fun hm => hv ((hseen _).2 hm),
        ← Source.visitAll_append, Source.linked, ← List.filterMap_append, h1, List.append_assoc,
        List.singleton_append]

namespace Graph

/-- The sources of a graph's block in the order in which they are first visited. -/
def visits (g : Graph ρ) : List (Source ρ) := Source.visitAll [] g.declared

/-- The collected sources come from recording the visited ones in turn. -/
theorem sources_eq {g : Graph ρ} {ss : List (Source ρ)} (h : g.sources = .ok ss) :
    ss = (g.visits.foldl recordSource ∅).values := by
  unfold sources at h
  cases hc : collectSources (g.declared.map .source) [] ∅ with
  | error e => simp [hc, Except.map] at h
  | ok t =>
      simp only [hc, Except.map, Except.ok.injEq] at h
      obtain ⟨new, h1, h2⟩ := collectSources_eq_visitAll _ _ _ [] (fun i => Iff.rfl) hc
      have hdecl : (g.declared.map Anchor.source).filterMap Anchor.source? = g.declared := by
        rw [List.filterMap_map]
        exact List.filterMap_some
      rw [hdecl, List.nil_append] at h1
      rw [visits, h1, ← h2, h]

theorem nodup_visits (g : Graph ρ) : (Source.idents g.visits).Nodup :=
  Source.nodup_visitAll [] g.declared List.nodup_nil

theorem reached_of_mem_visits {g : Graph ρ} {s : Source ρ} (h : s ∈ g.visits) : g.Reached s :=
  Source.forall_visitAll (fun _ _ hs ht => .linked hs ht) [] g.declared
    (fun _ hs => absurd hs List.not_mem_nil) (fun _ hs => .declared hs) s h

/-- **Exactly what is reached is visited.** -/
theorem mem_visits {g : Graph ρ} (hg : g.Coherent) {s : Source ρ} :
    s ∈ g.visits ↔ g.Reached s := by
  refine ⟨reached_of_mem_visits, ?_⟩
  intro h
  -- a visited source of the same number is this one
  have back : ∀ t : Source ρ, g.Reached t → t.ident ∈ Source.idents g.visits →
      t ∈ g.visits := by
    intro t ht hi
    obtain ⟨u, hu, hid⟩ := List.mem_map.1 hi
    rwa [← hg.source_eq (reached_of_mem_visits hu).holds ht.holds hid]
  induction h with
  | declared hs => exact back _ (.declared hs) (Source.ident_mem_visitAll [] g.declared _ hs)
  | linked hs ht ih =>
      rcases Source.linked_mem_visitAll [] g.declared _ ih with h | h
      · exact absurd h List.not_mem_nil
      · exact back _ (.linked hs ht) (h _ (Source.mem_linked.2 ht))

end Graph

end DotDoc
