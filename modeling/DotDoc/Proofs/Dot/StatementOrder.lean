import DotDoc.Proofs.Dot.Coverage
import DotDoc.Proofs.Graph.Index

set_option autoImplicit false

/-!
# The order of the node statements

The entries of a block stand in the order in which their keys are first visited
(`Graph.standsBefore_sources_iff`), and so do the statements of nodes. A graph visits its nodes in
the order in which it declares them, but it follows the links of each before it goes on to the next
one. So a node's statement may stand in front of that of a node declared earlier; then links lead to
its name from a node that is declared earlier still (`Graph.Laid.statementsOrdered`).
-/

namespace DotDoc

open Dot (Block NodeStatement)

/-! ## Standing before -/

section Lists

variable {α β : Type} {l l' p q : List α} {x y : α}

/-- The first item occurs in the list in front of all occurrences of the second one, which occurs
there too. -/
def StandsBefore (l : List α) (x y : α) : Prop := ∃ p q, l = p ++ q ∧ x ∈ p ∧ y ∉ p ∧ y ∈ q

theorem standsBefore_append (hx : x ∈ p) (hy : y ∉ p) (hyq : y ∈ q) : StandsBefore (p ++ q) x y :=
  ⟨p, q, rfl, hx, hy, hyq⟩

/-- Of two different items that occur, one stands before the other, -/
theorem standsBefore_total (hx : x ∈ l) (hy : y ∈ l) (hne : x ≠ y) :
    StandsBefore l x y ∨ StandsBefore l y x := by
  obtain ⟨a, b, rfl, hxa⟩ := List.eq_append_cons_of_mem hx
  by_cases hya : y ∈ a
  · exact .inr (standsBefore_append hya hxa List.mem_cons_self)
  · left
    have hyb : y ∈ b := by
      rcases List.mem_append.1 hy with hy | hy
      · exact absurd hy hya
      · exact (List.mem_cons.1 hy).resolve_left (Ne.symm hne)
    rw [List.append_cons]
    apply standsBefore_append (List.mem_append_right a List.mem_cons_self) _ hyb
    rw [List.mem_append, List.mem_singleton, not_or]
    exact ⟨hya, Ne.symm hne⟩

/-- but not both. -/
theorem StandsBefore.asymm (h : StandsBefore l x y) : ¬ StandsBefore l y x := by
  rintro ⟨a', b', heq, hya', hxa', -⟩
  obtain ⟨a, b, rfl, hxa, hya, -⟩ := h
  -- one of the two front parts begins with the other one
  rcases List.append_eq_append_iff.1 heq with ⟨c, rfl, -⟩ | ⟨c, rfl, -⟩
  · exact hxa' (List.mem_append_left c hxa)
  · exact hya (List.mem_append_left c hya')

/-- Two ways of ordering the same items agree if one follows from the other. -/
theorem standsBefore_iff_of_imp {m : List β} {u v : β} (hx : x ∈ l) (hy : y ∈ l)
    (hxy : x = y → u = v) (himp : StandsBefore l x y → StandsBefore m u v)
    (himp' : StandsBefore l y x → StandsBefore m v u) :
    StandsBefore l x y ↔ StandsBefore m u v := by
  refine ⟨himp, fun h => ?_⟩
  by_cases hne : x = y
  · rw [hxy hne] at h
    exact absurd h h.asymm
  · rcases standsBefore_total hx hy hne with h' | h'
    · exact h'
    · exact absurd h (himp' h').asymm

/-- Leaving out other items does not change what stands before what, if no item occurs twice. -/
theorem standsBefore_sublist_iff (hl : l'.Sublist l) (hnd : l.Nodup) (hx : x ∈ l') (hy : y ∈ l') :
    StandsBefore l' x y ↔ StandsBefore l x y := by
  have himp : ∀ {x y : α}, StandsBefore l' x y → StandsBefore l x y := by
    rintro x y ⟨a, b, rfl, hxa, -, hyb⟩
    obtain ⟨c, d, rfl, hac, hbd⟩ := List.append_sublist_iff.1 hl
    refine standsBefore_append (hac.subset hxa) (fun hyc => ?_) (hbd.subset hyb)
    exact (List.nodup_append.1 hnd).2.2 y hyc y (hbd.subset hyb) rfl
  exact standsBefore_iff_of_imp hx hy id himp himp

theorem standsBefore_map_iff {f : α → β} (hf : Function.Injective f) (hx : x ∈ l) (hy : y ∈ l) :
    StandsBefore l x y ↔ StandsBefore (l.map f) (f x) (f y) := by
  have himp : ∀ {x y : α}, StandsBefore l x y → StandsBefore (l.map f) (f x) (f y) := by
    rintro x y ⟨a, b, rfl, hxa, hya, hyb⟩
    rw [List.map_append]
    exact standsBefore_append (List.mem_map_of_mem hxa)
      (fun h => hya ((List.mem_map_of_injective hf).1 h)) (List.mem_map_of_mem hyb)
  exact standsBefore_iff_of_imp hx hy (congrArg f) himp himp

end Lists

variable {ρ : Type}

/-! ## Entries in the order of first visits -/

theorem mem_keys_recordSource {t : Table SourceKey (Source ρ)} {s : Source ρ} {k : SourceKey} :
    k ∈ (recordSource t s).keys ↔ k ∈ t.keys ∨ k = s.key := by
  rw [recordSource, Table.keys_set]
  split
  · rename_i hs
    exact ⟨.inl, fun h => h.elim id fun hk => hk ▸ hs⟩
  · rw [List.mem_append, List.mem_singleton]

theorem prefix_keys_recordSource (t : Table SourceKey (Source ρ)) (s : Source ρ) :
    t.keys <+: (recordSource t s).keys := by
  rw [recordSource, Table.keys_set]
  split
  · exact List.prefix_refl _
  · exact List.prefix_append _ _

theorem mem_keys_foldl_recordSource {vs : List (Source ρ)} {t : Table SourceKey (Source ρ)}
    {k : SourceKey} :
    k ∈ (vs.foldl recordSource t).keys ↔ k ∈ t.keys ∨ k ∈ vs.map Source.key := by
  induction vs generalizing t with
  | nil => simp
  | cons s rest ih =>
      rw [List.foldl_cons, ih, mem_keys_recordSource, List.map_cons, List.mem_cons, or_assoc]

theorem prefix_keys_foldl_recordSource (vs : List (Source ρ)) (t : Table SourceKey (Source ρ)) :
    t.keys <+: (vs.foldl recordSource t).keys := by
  induction vs generalizing t with
  | nil => exact List.prefix_refl _
  | cons s rest ih => exact (prefix_keys_recordSource t s).trans (ih (recordSource t s))

/-- Recorded keys stand in the order in which they first occur. -/
theorem standsBefore_recorded {vs : List (Source ρ)} {k k' : SourceKey}
    (h : StandsBefore (vs.map Source.key) k k') :
    StandsBefore (vs.foldl recordSource ∅).keys k k' := by
  obtain ⟨p, q, hpq, hk, hk', hq⟩ := h
  obtain ⟨vp, vq, rfl, rfl, rfl⟩ := List.map_eq_append_iff.1 hpq
  have hmem : ∀ {us : List (Source ρ)} {j : SourceKey},
      j ∈ (us.foldl recordSource ∅).keys ↔ j ∈ us.map Source.key := by
    intro us j
    rw [mem_keys_foldl_recordSource]
    exact or_iff_right List.not_mem_nil
  -- what is recorded later comes behind
  obtain ⟨late, hlate⟩ := prefix_keys_foldl_recordSource vq (vp.foldl recordSource ∅)
  have hall : k' ∈ ((vp ++ vq).foldl recordSource ∅).keys := by
    rw [hmem, List.map_append]
    exact List.mem_append_right _ hq
  rw [List.foldl_append, ← hlate] at hall ⊢
  exact standsBefore_append (hmem.2 hk) (fun h => hk' (hmem.1 h))
    ((List.mem_append.1 hall).resolve_left fun h => hk' (hmem.1 h))

namespace Graph

variable {g : Graph ρ} {ss : List (Source ρ)} {b : Block}

/-- **The entries of a block stand in the order in which their keys are first visited.** -/
theorem standsBefore_sources_iff (h : g.sources = .ok ss) {k k' : SourceKey}
    (hk : k ∈ ss.map Source.key) (hk' : k' ∈ ss.map Source.key) :
    StandsBefore (ss.map Source.key) k k' ↔ StandsBefore (g.visits.map Source.key) k k' := by
  rw [keys_sources h] at hk hk' ⊢
  have hvisited : ∀ {j : SourceKey}, j ∈ (g.visits.foldl recordSource ∅).keys →
      j ∈ g.visits.map Source.key := fun hj =>
    (mem_keys_foldl_recordSource.1 hj).resolve_left List.not_mem_nil
  exact (standsBefore_iff_of_imp (hvisited hk) (hvisited hk') id standsBefore_recorded
    standsBefore_recorded).symm

/-! ## Visits of declared nodes -/

theorem prefix_visitAll (seen p : List (Source ρ)) : seen <+: Source.visitAll seen p := by
  fun_induction Source.visitAll seen p with
  | case1 seen => exact List.prefix_refl _
  | case2 seen s rest h ih => exact ih
  | case3 seen s rest h ih1 ih2 => exact ((List.prefix_append _ _).trans ih1).trans ih2

/-- What is visited before a declared source is reached from the sources declared before it, up to
the first visit of its key. -/
theorem mem_visitAll_of_standsBefore (hg : g.Coherent) {pre post : List (Source ρ)} {s : Source ρ}
    (hdecl : g.declared = pre ++ s :: post) {k : SourceKey}
    (h : StandsBefore (g.visits.map Source.key) k s.key) :
    k ∈ (Source.visitAll [] pre).map Source.key := by
  obtain ⟨p, q, hpq, hk, hs, -⟩ := h
  -- the visit goes on with the source itself, unless its key was visited before
  have hfront : ∃ front, front <+: g.visits ∧ s.key ∈ front.map Source.key ∧
      (front = Source.visitAll [] pre ∨ front = Source.visitAll [] pre ++ [s]) := by
    have hall : g.visits = Source.visitAll (Source.visitAll [] pre) (s :: post) := by
      rw [visits, hdecl, Source.visitAll_append]
    by_cases hseen : s.ident ∈ Source.idents (Source.visitAll [] pre)
    · refine ⟨_, hall ▸ prefix_visitAll _ _, ?_, .inl rfl⟩
      obtain ⟨t, ht, hi⟩ := List.mem_map.1 hseen
      have htv : t ∈ g.visits := (hall ▸ prefix_visitAll _ _ : _ <+: g.visits).subset ht
      have hsd : s ∈ g.declared := hdecl ▸ List.mem_append_right pre List.mem_cons_self
      rw [hg.source_eq (reached_of_mem_visits htv).holds (Reached.declared hsd).holds hi] at ht
      exact List.mem_map_of_mem ht
    · refine ⟨Source.visitAll [] pre ++ [s], ?_, ?_, .inr rfl⟩
      · rw [hall, Source.visitAll_cons_of_notMem _ hseen]
        exact (prefix_visitAll _ _).trans (prefix_visitAll _ _)
      · exact List.mem_map_of_mem (List.mem_append_right _ List.mem_cons_self)
  obtain ⟨front, hpre, hsf, hor⟩ := hfront
  have hp : p <+: front.map Source.key := by
    rcases List.prefix_or_prefix_of_prefix ⟨q, hpq.symm⟩ (hpre.map Source.key) with hp | hp
    · exact hp
    · exact absurd (hp.subset hsf) hs
  rcases hor with rfl | rfl
  · exact hp.subset hk
  · have hmem := hp.subset hk
    rw [List.map_append, List.mem_append, List.map_singleton, List.mem_singleton] at hmem
    exact hmem.resolve_right fun e => hs (e ▸ hk)

/-- What is visited from some sources is linked from one of them. -/
theorem exists_linksTo_of_mem_visitAll {pending : List (Source ρ)} {s : Source ρ}
    (h : s ∈ Source.visitAll [] pending) :
    ∃ d ∈ pending, Relation.ReflTransGen Source.LinksTo d s := by
  refine Source.forall_visitAll (P := fun s => ∃ d ∈ pending,
    Relation.ReflTransGen Source.LinksTo d s) ?_ [] pending ?_ ?_ s h
  · rintro s t ⟨d, hd, hs⟩ ht
    exact ⟨d, hd, hs.tail ht⟩
  · exact fun t ht => absurd ht List.not_mem_nil
  · exact fun t ht => ⟨t, ht, .refl⟩

/-! ## Statements -/

/-- How the node statements of a graph's block are ordered. -/
structure StatementsOrdered (g : Graph ρ) (b : Block) : Prop where
  /-- No name has two statements. -/
  once : (b.nodes.map NodeStatement.name).Nodup
  /-- The statements stand in the order in which their names are first visited. -/
  by_visit : ∀ m ∈ b.nodes.map NodeStatement.name, ∀ n ∈ b.nodes.map NodeStatement.name,
    (StandsBefore (b.nodes.map NodeStatement.name) m n ↔
      StandsBefore (g.visits.map Source.key) (.node m) (.node n))
  /-- Those of declared nodes stand in the order of declaration, unless one or more links lead to
  the name of the later node from a node that is declared before both. -/
  declared : ∀ n₁ n₂, StandsBefore g.nodes n₁ n₂ →
    n₁.name ∈ b.nodes.map NodeStatement.name → n₂.name ∈ b.nodes.map NodeStatement.name →
    StandsBefore (b.nodes.map NodeStatement.name) n₁.name n₂.name ∨
      ∃ d m, StandsBefore g.nodes d n₁ ∧ m.name = n₂.name ∧
        Relation.TransGen Source.LinksTo (.node d) (.node m)

theorem Laid.names_eq (h : g.Laid ss b) :
    b.nodes.map NodeStatement.name = (g.statedNodes ss).map Node.name := by
  rw [h.nodes, List.map_map]
  rfl

theorem Laid.key_names_sublist (h : g.Laid ss b) :
    ((b.nodes.map NodeStatement.name).map SourceKey.node).Sublist (ss.map Source.key) := by
  rw [h.names_eq, List.map_map]
  exact (List.filter_sublist.map _).trans (Source.key_nodes_sublist ss)

theorem Laid.standsBefore_names_iff (h : g.Laid ss b) {m n : Label}
    (hm : m ∈ b.nodes.map NodeStatement.name) (hn : n ∈ b.nodes.map NodeStatement.name) :
    StandsBefore (b.nodes.map NodeStatement.name) m n ↔
      StandsBefore (g.visits.map Source.key) (.node m) (.node n) := by
  have hsub := h.key_names_sublist
  have hm' := List.mem_map_of_mem (f := SourceKey.node) hm
  have hn' := List.mem_map_of_mem (f := SourceKey.node) hn
  rw [standsBefore_map_iff (fun _ _ => SourceKey.node.inj) hm hn,
    standsBefore_sublist_iff hsub (nodup_keys_sources h.sources) hm' hn']
  exact standsBefore_sources_iff h.sources (hsub.subset hm') (hsub.subset hn')

/-- A declared node whose name is visited after that of a node declared later. -/
theorem exists_linksTo_of_overtaken (hg : g.Coherent) (hi : g.Indexed) {n₁ n₂ : Node ρ}
    (hbefore : StandsBefore g.nodes n₁ n₂)
    (h : StandsBefore (g.visits.map Source.key) (.node n₂.name) (.node n₁.name)) :
    ∃ d m, StandsBefore g.nodes d n₁ ∧ m.name = n₂.name ∧
      Relation.TransGen Source.LinksTo (.node d) (.node m) := by
  obtain ⟨p, q, hpq, hp, hn₂p, hn₂⟩ := hbefore
  obtain ⟨pre, post, rfl, hpre⟩ := List.eq_append_cons_of_mem hp
  have hdecl : g.declared = pre.map .node ++ Source.node n₁ ::
      ((post ++ q).map .node ++ g.subgraphs.map .graph) := by
    rw [Graph.declared, hpq]
    simp
  obtain ⟨s, hs, hkey⟩ := List.mem_map.1 (mem_visitAll_of_standsBefore hg hdecl h)
  obtain ⟨t, ht, hlinks⟩ := exists_linksTo_of_mem_visitAll hs
  obtain ⟨d, hd, rfl⟩ := List.mem_map.1 ht
  cases s with
  | graph k => cases hkey
  | node m =>
      have hname : m.name = n₂.name := SourceKey.node.inj hkey
      have hdn : StandsBefore g.nodes d n₁ := by
        rw [hpq, List.append_assoc]
        exact standsBefore_append hd hpre List.mem_cons_self
      refine ⟨d, m, hdn, hname, ?_⟩
      -- the two have different names, so at least one link is followed
      rcases Relation.reflTransGen_iff_eq_or_transGen.1 hlinks with heq | htrans
      · have hdm : d = m := (Source.node.inj heq).symm
        have hdname : d.name = n₂.name := hdm ▸ hname
        have hnames := hi.nodup_names
        rw [hpq, List.append_assoc, List.map_append, List.nodup_append] at hnames
        refine absurd hdname (hnames.2.2 _ (List.mem_map_of_mem hd) _ ?_)
        exact List.mem_map_of_mem (List.mem_append_right _ hn₂)
      · exact htrans

theorem Laid.statementsOrdered (hg : g.Coherent) (hi : g.Indexed) (h : g.Laid ss b) :
    g.StatementsOrdered b where
  once := h.nodup_names
  by_visit _ hm _ hn := h.standsBefore_names_iff hm hn
  declared n₁ n₂ hbefore h₁ h₂ := by
    have hne : n₁.name ≠ n₂.name := by
      intro heq
      have hmem : n₁ ∈ g.nodes ∧ n₂ ∈ g.nodes := by
        obtain ⟨p, q, hpq, hp, -, hq⟩ := hbefore
        rw [hpq]
        exact ⟨List.mem_append_left q hp, List.mem_append_right p hq⟩
      have h12 := List.inj_on_of_nodup_map hi.nodup_names hmem.1 hmem.2 heq
      exact (h12 ▸ hbefore).asymm (h12 ▸ hbefore)
    rcases standsBefore_total h₁ h₂ hne with h | hover
    · exact .inl h
    · rw [h.standsBefore_names_iff h₂ h₁] at hover
      exact .inr (exists_linksTo_of_overtaken hg hi hbefore hover)

end Graph

end DotDoc
