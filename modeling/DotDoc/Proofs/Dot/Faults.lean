import DotDoc.Proofs.Dot.SharedLinks

set_option autoImplicit false

/-!
# What cannot be written

A graph cannot be written if something is wrong with a link inside it: the link leads to a foreign
target, it leaves a node at a port with a foreign record name, or it leads to such a port
(`Link.Fault`). The failure says what is wrong with one of these links (`Graph.fault_of_error`), and
conversely no such link is passed over, however deep it lies (`Graph.not_fault_of_block`). So the
links alone decide whether there is a block (`Graph.block_error_iff`).

Here endpoints are meant to be made from nodes and ports (`Graph.PointsMade`). Then nothing that is
looked up on the way is missing: every collected link leads to an entry, and every entry has its
turn (`Graph.complete_of_sources`).
-/

namespace DotDoc

open Dot (Block Edge Endpoint)

variable {ρ : Type}

/-! ## Faults of links -/

/-- What is wrong with a link of a source, and the failure that it leads to. -/
inductive Link.Fault (s : Source ρ) (l : Link ρ) : Unwritable ρ → Prop
  | target {t : ForeignTarget} : l.target = .foreign t → Fault s l (.target t)
  | sourceRecord {n : Node ρ} {v : ρ} : s = .node n → l.sourcePort.record = .foreign v →
      Fault s l (.record v)
  | targetRecord {p : NodePoint ρ} {q : Port ρ} {v : ρ} : l.target = .point p →
      p.place = .port q → q.record = .foreign v → Fault s l (.record v)

namespace Graph

/-- The endpoints inside the graph are made from nodes and ports. -/
def PointsMade (g : Graph ρ) : Prop :=
  ∀ s, g.Inside s → ∀ l ∈ s.links, ∀ p, l.target = .point p →
    ∃ n q, p.anchor = .source (.node n) ∧ p.place = .port q

/-- A link inside the graph has this fault. -/
def Faulty (g : Graph ρ) (e : Unwritable ρ) : Prop :=
  ∃ s, g.Inside s ∧ ∃ l ∈ s.links, Link.Fault s l e

theorem Inside.trans {g k : Graph ρ} (hk : g.Inside (.graph k)) {s : Source ρ}
    (hs : k.Inside s) : g.Inside s := by
  obtain ⟨m, hm, hmk⟩ := hk
  exact ⟨m, hm, hmk.trans hs.holds⟩

variable {g k : Graph ρ} {ss : List (Source ρ)} {b : Block}

theorem PointsMade.of_inside (hg : g.PointsMade) (hk : g.Inside (.graph k)) : k.PointsMade :=
  fun s hs => hg s (hk.trans hs)

theorem Faulty.of_inside {e : Unwritable ρ} (h : k.Faulty e) (hk : g.Inside (.graph k)) :
    g.Faulty e := by
  obtain ⟨s, hs, hl⟩ := h
  exact ⟨s, hk.trans hs, hl⟩

/-- What a link leads to is a foreign target or a source that is reached with it. -/
theorem PointsMade.exists_source (hg : g.PointsMade) {s : Source ρ} (hs : g.Inside s)
    {l : Link ρ} (hl : l ∈ s.links) :
    (∃ t, l.target = .foreign t) ∨ ∃ t, l.target.anchor? = some (.source t) := by
  cases ht : l.target with
  | foreign t => exact .inl ⟨t, rfl⟩
  | graph h => exact .inr ⟨.graph h, rfl⟩
  | point p =>
      obtain ⟨n, q, hanchor, -⟩ := hg s hs l hl p ht
      exact .inr ⟨.node n, congrArg some hanchor⟩

theorem PointsMade.not_foreign (hg : g.PointsMade) {s : Source ρ} (hs : g.Inside s) (v : ρ) :
    .foreign v ∉ s.successors := by
  intro hv
  obtain ⟨l, hl, hanchor⟩ := Source.mem_successors.1 hv
  rcases hg.exists_source hs hl with ⟨t, ht⟩ | ⟨t, ht⟩
  · rw [ht] at hanchor
    cases hanchor
  · rw [ht] at hanchor
    cases hanchor

end Graph

/-! ## Deciding what is faulty -/

/-- The record name is one that cannot be written. -/
def RecordName.isForeign : RecordName ρ → Bool
  | foreign _ => true
  | _ => false

theorem RecordName.isForeign_iff {r : RecordName ρ} :
    r.isForeign = true ↔ ∃ v, r = .foreign v := by
  cases r with
  | foreign v => exact iff_of_true rfl ⟨v, rfl⟩
  | absent => exact iff_of_false Bool.false_ne_true nofun
  | text s => exact iff_of_false Bool.false_ne_true nofun
  | label l => exact iff_of_false Bool.false_ne_true nofun

namespace Target

/-- The target is no endpoint, or one that is made from a node and a port. -/
def isMade : Target ρ → Bool
  | point ⟨_, .source (.node _), .port _⟩ => true
  | point _ => false
  | _ => true

theorem isMade_iff {t : Target ρ} : t.isMade = true ↔
    ∀ p, t = .point p → ∃ n q, p.anchor = .source (.node n) ∧ p.place = .port q := by
  constructor
  · rintro h p rfl
    obtain ⟨i, ((n | k) | v), (q | w)⟩ := p
    · exact ⟨n, q, rfl, rfl⟩
    all_goals cases h
  · intro h
    cases t with
    | graph k => rfl
    | foreign u => rfl
    | point p =>
        obtain ⟨n, q, hanchor, hplace⟩ := h p rfl
        obtain ⟨i, anchor, place⟩ := p
        subst hanchor hplace
        rfl

/-- The target is foreign or is at a port that cannot be written. -/
def isFaulty : Target ρ → Bool
  | point ⟨_, _, .port q⟩ => q.record.isForeign
  | foreign _ => true
  | _ => false

end Target

/-- Something is wrong with the link of the source. -/
def Link.isFaulty (s : Source ρ) (l : Link ρ) : Bool :=
  l.target.isFaulty || (!s.isGraph && l.sourcePort.record.isForeign)

theorem Link.isFaulty_iff {s : Source ρ} {l : Link ρ} :
    Link.isFaulty s l = true ↔ ∃ e, Link.Fault s l e := by
  rw [isFaulty, Bool.or_eq_true]
  constructor
  · rintro (h | h)
    · cases ht : l.target with
      | foreign t => exact ⟨_, .target ht⟩
      | graph k =>
          rw [ht] at h
          cases h
      | point p =>
          rw [ht] at h
          obtain ⟨i, anchor, (q | w)⟩ := p
          · obtain ⟨v, hv⟩ := RecordName.isForeign_iff.1 h
            exact ⟨_, .targetRecord ht rfl hv⟩
          · cases h
    · obtain ⟨hs, hrecord⟩ := Bool.and_eq_true_iff.1 h
      obtain ⟨v, hv⟩ := RecordName.isForeign_iff.1 hrecord
      cases s with
      | node n => exact ⟨_, .sourceRecord rfl hv⟩
      | graph k => cases hs
  · rintro ⟨e, hfault⟩
    cases hfault with
    | target ht =>
        rw [ht]
        exact .inl rfl
    | sourceRecord hs hv =>
        rw [hs]
        exact .inr (RecordName.isForeign_iff.2 ⟨_, hv⟩)
    | @targetRecord p q v ht hplace hv =>
        rw [ht]
        obtain ⟨i, anchor, place⟩ := p
        subst hplace
        exact .inl (RecordName.isForeign_iff.2 ⟨v, hv⟩)

namespace Graph

variable {g : Graph ρ}

theorem pointsMade_iff :
    (∀ s ∈ g.insideAll, ∀ l ∈ s.links, l.target.isMade = true) ↔ g.PointsMade := by
  simp only [mem_insideAll, Target.isMade_iff]
  rfl

instance (g : Graph ρ) : Decidable g.PointsMade := decidable_of_iff _ pointsMade_iff

theorem exists_faulty_iff :
    (∃ s ∈ g.insideAll, ∃ l ∈ s.links, Link.isFaulty s l = true) ↔ ∃ e, g.Faulty e := by
  simp only [mem_insideAll, Link.isFaulty_iff]
  constructor
  · rintro ⟨s, hs, l, hl, e, he⟩
    exact ⟨e, s, hs, l, hl, he⟩
  · rintro ⟨e, s, hs, l, hl, he⟩
    exact ⟨s, hs, l, hl, e, he⟩

instance (g : Graph ρ) : Decidable (∃ e, g.Faulty e) := decidable_of_iff _ exists_faulty_iff

end Graph

/-! ## Foreign targets stop the collection -/

theorem Target.foreign?_eq_some {t : Target ρ} {u : ForeignTarget} :
    t.foreign? = some u ↔ t = .foreign u := by
  cases t with
  | foreign v => simp [Target.foreign?]
  | point p => simp [Target.foreign?]
  | graph g => simp [Target.foreign?]

/-- What is anchored at nothing is a foreign target. -/
theorem Target.foreign_of_anchor? {t : Target ρ} (h : t.anchor? = none) :
    ∃ u, t = .foreign u := by
  cases t with
  | point p => cases h
  | graph k => cases h
  | foreign u => exact ⟨u, rfl⟩

theorem Source.exists_of_foreign? {s : Source ρ} {t : ForeignTarget} (h : s.foreign? = some t) :
    ∃ l ∈ s.links, l.target = .foreign t := by
  obtain ⟨l, hl, hlt⟩ := List.exists_of_findSome?_eq_some h
  exact ⟨l, List.mem_reverse.1 hl, Target.foreign?_eq_some.1 hlt⟩

theorem Source.not_foreign_of_foreign? {s : Source ρ} (h : s.foreign? = none) {l : Link ρ}
    (hl : l ∈ s.links) (t : ForeignTarget) : l.target ≠ .foreign t := by
  intro ht
  have hnone := List.findSome?_eq_none_iff.1 h l (List.mem_reverse.2 hl)
  rw [ht] at hnone
  cases hnone

/-- If links hand on a property and no source with it has a foreign anchor among its successors,
then a collection of such sources that fails has met one with a foreign target. -/
theorem exists_of_collectSources_error {P : Source ρ → Prop}
    (hlinks : ∀ s t, P s → s.LinksTo t → P t) (hanchors : ∀ s, P s → ∀ v, .foreign v ∉ s.successors)
    (pending : List (Anchor ρ)) (visited : List Nat) (entries : Table SourceKey (Source ρ))
    (hp : ∀ a ∈ pending, ∃ s, a = .source s ∧ P s) {e : Unwritable ρ}
    (h : collectSources pending visited entries = .error e) :
    ∃ s t, P s ∧ s.foreign? = some t ∧ e = .target t := by
  fun_induction collectSources pending visited entries with
  | case1 => cases h
  | case2 visited entries v rest =>
      obtain ⟨s, hs, -⟩ := hp _ List.mem_cons_self
      cases hs
  | case3 visited entries s rest hv ih =>
      exact ih (fun a ha => hp a (List.mem_cons_of_mem _ ha)) h
  | case4 visited entries s rest hv t hf =>
      cases h
      obtain ⟨u, hu, hPu⟩ := hp _ List.mem_cons_self
      cases hu
      exact ⟨s, t, hPu, hf, rfl⟩
  | case5 visited entries s rest hv hf ih =>
      obtain ⟨u, hu, hPu⟩ := hp _ List.mem_cons_self
      cases hu
      -- the successors come to be pending, and they have the property by the links to them
      refine ih (fun a ha => ?_) h
      rcases List.mem_append.1 ha with ha | ha
      · cases a with
        | foreign v => exact absurd ha (hanchors s hPu v)
        | source t => exact ⟨t, rfl, hlinks s t hPu (Source.linksTo_iff.2 ha)⟩
      · exact hp a (List.mem_cons_of_mem _ ha)

/-- A collection that goes through enters no source with a foreign target. -/
theorem foreign?_of_collectSources (pending : List (Anchor ρ)) (visited : List Nat)
    (entries : Table SourceKey (Source ρ)) (seen : List (Source ρ))
    (hseen : ∀ i, i ∈ visited ↔ i ∈ Source.idents seen) (hnone : ∀ s ∈ seen, s.foreign? = none)
    {result : Table SourceKey (Source ρ)}
    (h : collectSources pending visited entries = .ok result) :
    ∀ s ∈ Source.visitAll seen (pending.filterMap Anchor.source?), s.foreign? = none := by
  -- what was seen grows along the rounds, and each source was looked at before it was added
  fun_induction collectSources pending visited entries generalizing seen with
  | case1 visited entries => simpa using hnone
  | case2 => cases h
  | case3 visited entries s rest hv ih =>
      rw [List.filterMap_cons_some (show Anchor.source? (.source s) = some s from rfl),
        Source.visitAll_cons_of_mem _ ((hseen _).1 hv)]
      exact ih seen hseen hnone h
  | case4 => cases h
  | case5 visited entries s rest hv hf ih =>
      have hseen' : ∀ i, i ∈ s.ident :: visited ↔ i ∈ Source.idents (seen ++ [s]) := by
        intro i
        simp [hseen, Source.idents, or_comm]
      have hnone' : ∀ t ∈ seen ++ [s], t.foreign? = none := by
        intro t ht
        rcases List.mem_append.1 ht with ht | ht
        · exact hnone t ht
        · rw [List.mem_singleton.1 ht]
          exact hf
      have hrest := ih (seen ++ [s]) hseen' hnone' h
      rwa [List.filterMap_append, Source.visitAll_append, ← Source.linked,
        ← Source.visitAll_cons_of_notMem _ fun hm => hv ((hseen _).2 hm)] at hrest

namespace Graph

variable {g k : Graph ρ} {ss : List (Source ρ)} {b : Block}

/-- A graph has no sources only because a link of a reached source leads to a foreign target. -/
theorem exists_of_sources_error (hg : g.PointsMade) {e : Unwritable ρ} (h : g.sources = .error e) :
    ∃ s t, g.Reached s ∧ s.foreign? = some t ∧ e = .target t := by
  unfold sources at h
  cases hc : collectSources (g.declared.map .source) [] ∅ with
  | ok t => simp [hc, Except.map] at h
  | error e' =>
      simp only [hc, Except.map, Except.error.injEq] at h
      subst h
      refine exists_of_collectSources_error (P := g.Reached) ?_ ?_ _ _ _ ?_ hc
      · exact fun s t hs ht => hs.linked ht
      · exact fun s hs v => hg.not_foreign hs.inside v
      · intro a ha
        obtain ⟨s, hs, rfl⟩ := List.mem_map.1 ha
        exact ⟨s, rfl, .declared hs⟩

/-- If a graph has sources, then no link of a reached source leads to a foreign target. -/
theorem foreign?_of_sources (hg : g.Coherent) (h : g.sources = .ok ss) {s : Source ρ}
    (hs : g.Reached s) : s.foreign? = none := by
  unfold sources at h
  cases hc : collectSources (g.declared.map .source) [] ∅ with
  | error e => simp [hc, Except.map] at h
  | ok t =>
      have hall := foreign?_of_collectSources _ _ _ [] (fun i => Iff.rfl)
        (fun _ hs => absurd hs List.not_mem_nil) hc
      rw [List.filterMap_map, show (Anchor.source? ∘ Anchor.source : Source ρ → _) = some from rfl,
        List.filterMap_some] at hall
      exact hall s ((mem_visits hg).2 hs)

end Graph

/-! ## Ends that cannot be written -/

theorem exists_of_mapM_error {α β ε : Type} {f : α → Except ε β} {xs : List α} {e : ε}
    (h : xs.mapM f = .error e) : ∃ x ∈ xs, f x = .error e := by
  induction xs with
  | nil => cases h
  | cons x rest ih =>
      rw [List.mapM_cons] at h
      cases hx : f x with
      | error e' =>
          rw [hx] at h
          cases h
          exact ⟨x, List.mem_cons_self, hx⟩
      | ok y =>
          cases hr : rest.mapM f with
          | error e' =>
              rw [hx, hr] at h
              cases h
              obtain ⟨z, hz, hfz⟩ := ih hr
              exact ⟨z, List.mem_cons_of_mem x hz, hfz⟩
          | ok zs =>
              rw [hx, hr] at h
              cases h

/-- A port fails to be written exactly for its foreign record name. -/
theorem Dot.Endpoint.ofPort_eq_error (name : Label) {p : Port ρ} {e : Unwritable ρ} :
    Endpoint.ofPort name p = .error e ↔ ∃ v, p.record = .foreign v ∧ e = .record v := by
  unfold Endpoint.ofPort
  cases p.record with
  | absent => exact ⟨nofun, nofun⟩
  | text s => exact ⟨nofun, nofun⟩
  | label l => exact ⟨nofun, nofun⟩
  | foreign v =>
      constructor
      · intro h
        cases h
        exact ⟨v, rfl, rfl⟩
      · rintro ⟨w, hw, rfl⟩
        cases hw
        rfl

/-- An edge fails to be written if one of its ends does. -/
theorem Dot.Edge.ofEnds_eq_error {l : Link ρ} {source target : Except (Unwritable ρ) Endpoint}
    {e : Unwritable ρ} (h : Edge.ofEnds l source target = .error e) :
    source = .error e ∨ target = .error e := by
  unfold Edge.ofEnds at h
  cases source with
  | error u =>
      cases h
      exact .inl rfl
  | ok p =>
      cases target with
      | error u =>
          cases h
          exact .inr rfl
      | ok q => cases h

/-- An end at a nested block fails if the block does. -/
theorem Graph.block_eq_error_of_map {k : Graph ρ} {e : Unwritable ρ}
    (h : (k.block.map .block : Except (Unwritable ρ) Endpoint) = .error e) :
    k.block = .error e := by
  cases hb : k.block with
  | ok c =>
      rw [hb] at h
      cases h
  | error u =>
      rw [hb] at h
      cases h
      rfl

/-- The end of an edge at its source fails for the fault of the link, or because of a nested
block. -/
theorem Source.fault_of_endpoint {s : Source ρ} {l : Link ρ} {e : Unwritable ρ}
    (h : s.endpoint l = .error e) :
    ((∃ n, s = .node n) ∧ ∃ v, l.sourcePort.record = .foreign v ∧ e = .record v) ∨
      ∃ k, s = .graph k ∧ k.block = .error e := by
  cases s with
  | node n => exact .inl ⟨⟨n, rfl⟩, (Endpoint.ofPort_eq_error _).1 h⟩
  | graph k => exact .inr ⟨k, rfl, Graph.block_eq_error_of_map h⟩

/-- The end at the target, too, if it is a point that is made from a node and a port. -/
theorem Link.fault_of_target {s : Source ρ} {l : Link ρ} {e : Unwritable ρ}
    (hmade : ∀ p, l.target = .point p → ∃ n q, p.anchor = .source (.node n) ∧ p.place = .port q)
    (h : l.target.endpoint = .error e) :
    Link.Fault s l e ∨ ∃ k, l.target = .graph k ∧ k.block = .error e := by
  cases ht : l.target with
  | foreign t =>
      simp only [ht, Target.endpoint, Except.error.injEq] at h
      exact .inl (h ▸ .target ht)
  | graph k =>
      rw [ht] at h
      exact .inr ⟨k, rfl, Graph.block_eq_error_of_map h⟩
  | point p =>
      obtain ⟨n, q, hanchor, hplace⟩ := hmade p ht
      simp only [ht, Target.endpoint, Endpoint.ofPoint, hanchor, hplace] at h
      obtain ⟨v, hv, rfl⟩ := (Endpoint.ofPort_eq_error _).1 h
      exact .inl (.targetRecord ht hplace hv)

namespace Graph

/-- A block fails because the sources cannot be collected, or because of a block that stands alone,
or because of an end of an edge. -/
theorem cases_of_block_error {g : Graph ρ} {e : Unwritable ρ} (h : g.block = .error e) :
    g.sources = .error e ∨ ∃ ss, g.sources = .ok ss ∧
      ((∃ k ∈ Source.aloneGraphs ss, k.block = .error e) ∨
        ∃ x ∈ Source.edges ss, x.1.endpoint x.2 = .error e ∨ x.2.target.endpoint = .error e) := by
  rw [block_eq] at h
  cases hs : g.sources with
  | error u =>
      rw [hs] at h
      cases h
      exact .inl rfl
  | ok ss =>
      rw [hs] at h
      refine .inr ⟨ss, rfl, ?_⟩
      change (do
        let alone ← (Source.aloneGraphs ss).mapM Graph.block
        let edges ← (Source.edges ss).mapM fun e : Source ρ × Link ρ =>
          Edge.ofEnds e.2 (e.1.endpoint e.2) e.2.target.endpoint
        return g.blockOfParts ss alone edges) = _ at h
      cases ha : (Source.aloneGraphs ss).mapM Graph.block with
      | error u =>
          rw [ha] at h
          cases h
          exact .inl (exists_of_mapM_error ha)
      | ok alone =>
          cases he : (Source.edges ss).mapM fun e : Source ρ × Link ρ =>
              Edge.ofEnds e.2 (e.1.endpoint e.2) e.2.target.endpoint with
          | ok edges =>
              rw [ha, he] at h
              cases h
          | error u =>
              rw [ha, he] at h
              cases h
              obtain ⟨x, hx, hends⟩ := exists_of_mapM_error he
              exact .inr ⟨x, hx, Edge.ofEnds_eq_error hends⟩

/-! ## Every failure is the fault of a link -/

/-- **A graph that cannot be written has a link with a fault, and the failure tells it.** -/
theorem fault_of_error {g : Graph ρ} (hg : g.PointsMade) {e : Unwritable ρ}
    (h : g.block = .error e) : g.Faulty e := by
  -- a graph that is written inside the block is smaller, and its faults are inside `g`
  have hnested : ∀ k, g.Reached (.graph k) → sizeOf k < sizeOf g → k.block = .error e →
      g.Faulty e := fun k hk _ hke =>
    (fault_of_error (hg.of_inside hk.inside) hke).of_inside hk.inside
  rcases cases_of_block_error h with hs | ⟨ss, hs, ⟨k, hk, hke⟩ | ⟨⟨s, l⟩, hx, hends⟩⟩
  · obtain ⟨s, t, hreached, hf, rfl⟩ := exists_of_sources_error hg hs
    obtain ⟨l, hl, ht⟩ := Source.exists_of_foreign? hf
    exact ⟨s, hreached.inside, l, hl, .target ht⟩
  · exact hnested k (reached_of_mem_visits ((graph_mem_sources hs).1 (mem_aloneGraphs hk)))
      (sizeOf_aloneGraphs hs hk) hke
  · obtain ⟨hmem, hl⟩ := Source.mem_edges hx
    -- the link of the entry belongs to a visited source of its key
    obtain ⟨v, hv, hkey, hlv⟩ := exists_visit_of_link hs hmem hl
    have hvr := reached_of_mem_visits hv
    rcases hends with hsource | htarget
    · rcases Source.fault_of_endpoint hsource with ⟨⟨m, rfl⟩, w, hw, rfl⟩ | ⟨k, rfl, hke⟩
      · cases v with
        | graph k => cases hkey
        | node n => exact ⟨.node n, hvr.inside, l, hlv, .sourceRecord rfl hw⟩
      · exact hnested k (reached_of_mem_visits ((graph_mem_sources hs).1 hmem))
          (sizeOf_edgeSource hs hx) hke
    · rcases Link.fault_of_target (hg v hvr.inside l hlv) htarget with hfault | ⟨k, ht, hke⟩
      · exact ⟨v, hvr.inside, l, hlv, hfault⟩
      · exact hnested k (reached_of_link hs hmem hl (by rw [ht]; rfl))
          (sizeOf_edgeTarget hs hx ht) hke
termination_by sizeOf g

/-! ## No fault is passed over -/

variable {g k : Graph ρ} {ss : List (Source ρ)} {b : Block}

/-- A reached graph is written, since no endpoint is made from it. -/
theorem Laid.block_of_reached (hg : g.Coherent) (hp : g.PointsMade) (h : g.Laid ss b)
    (hk : g.Reached (.graph k)) : ∃ c, k.block = .ok c := by
  have hcov := h.covered hg
  have hnone : ¬ Source.PointsAt ss k.ident := by
    rintro ⟨s, hs, l, hl, p, ht, hkey⟩
    obtain ⟨v, hv, -, hlv⟩ := exists_visit_of_link h.sources hs hl
    obtain ⟨n, q, hanchor, -⟩ := hp v (reached_of_mem_visits hv).inside l hlv p ht
    rw [hanchor] at hkey
    cases hkey
  -- so the block is there: at the ends of edges, or else alone
  have hpos : 0 < b.inner.countP fun c => c.origin == k.ident := by
    by_cases hends : k.links ≠ [] ∨ Source.timesTargeted ss k.ident ≠ 0
    · exact Nat.pos_of_ne_zero (hcov.ends k hk hends).2
    · simp only [not_or, not_not] at hends
      rw [hcov.alone k hk hends.1 hends.2 hnone]
      exact Nat.one_pos
  obtain ⟨c, hc, hi⟩ := List.countP_pos_iff.1 hpos
  exact ⟨c, hcov.shown k hk c hc (beq_iff_eq.1 hi)⟩

/-- What is inside a graph that is written is reached by a graph that is written. -/
theorem exists_written_of_inside (hg : g.Coherent) (hp : g.PointsMade) (hb : g.block = .ok b)
    {s : Source ρ} (hs : g.Inside s) :
    ∃ (k : Graph ρ) (c : Block), k.Coherent ∧ k.PointsMade ∧ k.block = .ok c ∧ k.Reached s := by
  obtain ⟨m, hm, hms⟩ := hs
  -- from part to part, the graph that reaches it is the same one or a member of that one
  induction hms with
  | refl => exact ⟨g, b, hg, hp, hb, .declared hm⟩
  | tail _ hpart ih =>
      obtain ⟨k, c, hkg, hkp, hkc, ht⟩ := ih
      rcases hpart with hmember | hlink
      · -- the members of a graph are reached by the graph itself, which is written as well
        rename_i t u _
        cases t with
        | node n => exact absurd hmember List.not_mem_nil
        | graph j =>
            obtain ⟨ss, hlaid⟩ := laid_of_block hkc
            obtain ⟨d, hd⟩ := hlaid.block_of_reached hkg hkp ht
            exact ⟨j, d, hkg.of_holds ht.holds, hkp.of_inside ht.inside, hd, .declared hmember⟩
      · exact ⟨k, c, hkg, hkp, hkc, ht.linked hlink⟩

/-- **Nothing is wrong with the links inside a graph that is written.** -/
theorem not_fault_of_block (hg : g.Coherent) (hp : g.PointsMade) (hb : g.block = .ok b)
    (e : Unwritable ρ) : ¬ g.Faulty e := by
  rintro ⟨s, hs, l, hl, hfault⟩
  obtain ⟨k, c, hkg, hkp, hkc, hks⟩ := exists_written_of_inside hg hp hb hs
  obtain ⟨ss, h⟩ := laid_of_block hkc
  -- the edge line for the link shows both of its ends
  obtain ⟨t, ht, hkey⟩ := exists_entry h.sources ((mem_visits hkg).2 hks)
  have hlt := link_mem_entry hkg h.sources ((mem_visits hkg).2 hks) ht hkey hl
  obtain ⟨x, -, hshows⟩ := h.mem_edge ht hlt
  cases hfault with
  | target htarget =>
      exact Source.not_foreign_of_foreign? (foreign?_of_sources hkg h.sources hks) hl _ htarget
  | sourceRecord hsn hrecord =>
      subst hsn
      cases t with
      | graph j => cases hkey
      | node m =>
          -- the entry may be another version of the node, but the port is that of the link
          have herr := (Endpoint.ofPort_eq_error m.name).2 ⟨_, hrecord, rfl⟩
          have hok := hshows.source
          simp only [Source.endpoint] at hok
          rw [hok] at herr
          cases herr
  | @targetRecord p q v htarget hplace hrecord =>
      obtain ⟨n, q', hanchor, -⟩ := hkp s hks.inside l hl p htarget
      have herr := (Endpoint.ofPort_eq_error n.name).2 ⟨_, hrecord, rfl⟩
      have hok := hshows.target
      simp only [htarget, Target.endpoint, Endpoint.ofPoint, hanchor, hplace] at hok
      rw [show (Source.node n).name = n.name from rfl, herr] at hok
      cases hok

/-- **The links inside a graph decide whether it can be written.** -/
theorem block_error_iff (hg : g.Coherent) (hp : g.PointsMade) :
    (∃ e, g.block = .error e) ↔ ∃ e, g.Faulty e := by
  constructor
  · rintro ⟨e, he⟩
    exact ⟨e, fault_of_error hp he⟩
  · rintro ⟨e, he⟩
    cases hb : g.block with
    | error u => exact ⟨u, rfl⟩
    | ok b => exact absurd he (not_fault_of_block hg hp hb e)

end Graph

/-! ## Nothing is missing -/

/-- Whatever is looked up among the sources of a block is there: each link leads to an entry, and
each entry has its turn. -/
structure Source.Complete (ss : List (Source ρ)) : Prop where
  found : ∀ s ∈ ss, ∀ l ∈ s.links, ∃ k, l.target.key? = some k ∧ ∃ i, position? ss k = some i
  placed : (linearize ss).Perm ss

theorem Source.exists_position {ss : List (Source ρ)} {s : Source ρ} (hs : s ∈ ss) :
    ∃ i, position? ss s.key = some i := by
  rw [← Option.isSome_iff_exists, position?, List.isSome_findFinIdx?, List.any_eq_true]
  exact ⟨s, hs, beq_self_eq_true s.key⟩

namespace Graph

variable {g : Graph ρ} {ss : List (Source ρ)}

/-- If no reached endpoint is anchored at something foreign, then each collected link leads to an
entry. -/
theorem exists_entry_of_link (hg : g.Coherent)
    (hanchors : ∀ s, g.Reached s → ∀ v, .foreign v ∉ s.successors) (h : g.sources = .ok ss)
    {s : Source ρ} (hs : s ∈ ss) {l : Link ρ} (hl : l ∈ s.links) :
    ∃ t ∈ ss, l.target.key? = some t.key := by
  obtain ⟨v, hv, -, hlv⟩ := exists_visit_of_link h hs hl
  have hvr := reached_of_mem_visits hv
  cases ha : l.target.anchor? with
  | none =>
      obtain ⟨t, ht⟩ := Target.foreign_of_anchor? ha
      exact absurd ht (Source.not_foreign_of_foreign? (foreign?_of_sources hg h hvr) hlv t)
  | some a =>
      cases a with
      | foreign u => exact absurd (Source.mem_successors.2 ⟨l, hlv, ha⟩) (hanchors v hvr u)
      | source t =>
          obtain ⟨e, he, hkey⟩ := exists_entry h ((mem_visits hg).2 (hvr.linked ⟨l, hlv, ha⟩))
          refine ⟨e, he, ?_⟩
          rw [Target.key?, ha, hkey]
          rfl

theorem complete_of_sources (hg : g.Coherent) (hp : g.PointsMade) (h : g.sources = .ok ss) :
    Source.Complete ss where
  found s hs l hl := by
    have hanchors : ∀ s, g.Reached s → ∀ v, .foreign v ∉ s.successors :=
      fun _ hs v => hp.not_foreign hs.inside v
    obtain ⟨t, ht, hkey⟩ := exists_entry_of_link hg hanchors h hs hl
    exact ⟨t.key, hkey, Source.exists_position ht⟩
  placed := Source.linearize_perm ss

end Graph

end DotDoc
