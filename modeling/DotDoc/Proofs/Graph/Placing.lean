import DotDoc.Proofs.Graph.Content
import Mathlib.Data.List.Induction

set_option autoImplicit false

/-!
# What placing members does to the content

A graph that finds its members by their names has a tidy content, if its subgraphs do
(`Graph.Indexed.tidy_content`). To place a node or a subgraph in it is to place its content in the
content of the graph (`Graph.content_appendNode`, `Graph.content_setNode`,
`Graph.content_appendSubgraph`, `Graph.content_setSubgraph`).
-/

namespace DotDoc

open Keyed (place lay)

variable {ρ : Type}

namespace Graph

/-- Nodes added to a content. -/
def layNodes (g : Graph ρ) (ns : List (Node ρ)) : Graph ρ :=
  { g with nodes := lay Node.name Node.absorb g.nodes ns }

/-- Subgraphs added to a content. -/
def laySubgraphs (g : Graph ρ) (ss : List (Graph ρ)) : Graph ρ :=
  { g with subgraphs := lay tag join g.subgraphs ss }

/-! ## Lists of subgraphs -/

theorem tag_asMember (s : Graph ρ) : s.asMember.tag = s.tag := by
  cases hs : s.name.anonymous with
  | true => rw [asMember, if_pos hs]
  | false =>
      have hname : s.asMember.name.anonymous = false := (name_asMember s).symm ▸ hs
      rw [tag_of_named hname, tag_of_named hs, name_asMember]

theorem asMember_of_named {s : Graph ρ} (h : s.name.anonymous = false) :
    s.asMember = s.content := by
  rw [asMember, h]
  rfl

/-- No name comes twice in the list. -/
def NamedOnce (ss : List (Graph ρ)) : Prop :=
  ss.Pairwise fun s t => s.name.anonymous = false → s.tag ≠ t.tag

theorem Indexed.namedOnce {g : Graph ρ} (hg : g.Indexed) :
    NamedOnce (g.subgraphs.map asMember) := by
  have hnames := hg.nodup_subgraphNames
  rw [List.nodup_iff_pairwise_ne, List.pairwise_filter, List.pairwise_map] at hnames
  refine List.pairwise_map.2 (hnames.imp fun {s t} h hs heq => ?_)
  rw [name_asMember] at hs
  rw [tag_asMember, tag_asMember] at heq
  have ht := named_of_tag_eq heq hs
  rw [tag_of_named hs, tag_of_named ht] at heq
  exact h (by rw [hs]; rfl) (by rw [ht]; rfl) (Sum.inl.inj heq)

theorem addDistinct_eq_place {known : List (Graph ρ)} {s : Graph ρ}
    (h : s.name.anonymous = false → s.tag ∉ known.map tag) :
    addDistinct known s = place tag (fun x => x) s known := by
  unfold addDistinct
  cases hs : s.name.anonymous with
  | false =>
      rw [Keyed.place_of_notMem (h hs), Bool.false_and]
      rfl
  | true =>
      rw [Bool.true_and]
      by_cases hmem : s.tag ∈ known.map tag
      · rw [Keyed.place_id_of_mem hmem, if_pos ((mem_tags_of_anonymous hs known).1 hmem)]
      · rw [Keyed.place_of_notMem hmem, if_neg fun h => hmem ((mem_tags_of_anonymous hs known).2 h)]

theorem tags_subset_of_lay {ts : List (Graph ρ)} :
    ∀ x ∈ lay tag (fun x _ => x) [] ts, x ∈ ts :=
  Keyed.forall_lay (fun _ _ _ _ hx _ => hx) (fun _ h => absurd h List.not_mem_nil) fun _ h => h

/-- If no name comes twice, the distinct subgraphs are told apart by their tags. -/
theorem distinct_eq_lay {ts : List (Graph ρ)} (h : NamedOnce ts) :
    distinct ts = lay tag (fun x _ => x) [] ts := by
  induction ts using List.reverseRecOn with
  | nil => rfl
  | append_singleton ts s ih =>
      obtain ⟨hts, -, hs⟩ := List.pairwise_append.1 h
      rw [distinct, List.foldl_append, Keyed.lay_append]
      show addDistinct (distinct ts) s = place tag (fun x => x) s (lay tag (fun x _ => x) [] ts)
      rw [ih hts]
      refine addDistinct_eq_place fun hnamed hmem => ?_
      obtain ⟨t, ht, htag⟩ := List.mem_map.1 hmem
      exact hs t (tags_subset_of_lay t ht) s (List.mem_singleton_self s)
        (named_of_tag_eq htag.symm hnamed) htag

theorem nodup_tags_distinct {ts : List (Graph ρ)} (h : NamedOnce ts) :
    ((distinct ts).map tag).Nodup := by
  rw [distinct_eq_lay h]
  have hnil : (([] : List (Graph ρ)).map tag).Nodup := List.nodup_nil
  exact Keyed.nodup_lay (fun _ _ => rfl) hnil ts

theorem mem_of_mem_distinct {ts : List (Graph ρ)} (h : NamedOnce ts) {x : Graph ρ}
    (hx : x ∈ distinct ts) : x ∈ ts := by
  rw [distinct_eq_lay h] at hx
  exact tags_subset_of_lay x hx

/-- It is all the same whether subgraphs are joined that come for a second time. -/
theorem lay_distinct {ts : List (Graph ρ)} (h : NamedOnce ts) (xs : List (Graph ρ)) :
    lay tag join xs (distinct ts) = lay tag join xs ts := by
  induction ts using List.reverseRecOn with
  | nil => rfl
  | append_singleton ts s ih =>
      obtain ⟨hts, -, -⟩ := List.pairwise_append.1 h
      rw [Keyed.lay_append, ← ih hts, distinct, List.foldl_append]
      show lay tag join xs (addDistinct (distinct ts) s) =
        place tag (fun x => x.join s) s (lay tag join xs (distinct ts))
      unfold addDistinct
      split
      · rename_i hknown
        obtain ⟨hs, hany⟩ := Bool.and_eq_true_iff.1 hknown
        have hmem : s.tag ∈ (lay tag join xs (distinct ts)).map tag :=
          Keyed.mem_map_key_lay tag_join (.inr ((mem_tags_of_anonymous hs _).2 hany))
        -- joined with one that is there, an anonymous one changes nothing
        have hjoin : ∀ x : Graph ρ, x.tag = s.tag → x.join s = x := fun x hx =>
          join_of_anonymous (anonymous_of_tag_eq hx.symm hs) s
        rw [Keyed.place_congr hjoin, Keyed.place_id_of_mem hmem]
      · rw [Keyed.lay_append]
        rfl

section InPlace

variable {above below : List (Graph ρ)} {k m : Graph ρ}

theorem NamedOnce.notMem_above (h : NamedOnce (above ++ k :: below))
    (hk : k.name.anonymous = false) : k.tag ∉ above.map tag := by
  intro hmem
  obtain ⟨t, ht, htag⟩ := List.mem_map.1 hmem
  exact (List.pairwise_append.1 h).2.2 t ht k List.mem_cons_self
    (named_of_tag_eq htag.symm hk) htag

theorem NamedOnce.notMem_below (h : NamedOnce (above ++ k :: below))
    (hk : k.name.anonymous = false) : k.tag ∉ below.map tag := by
  intro hmem
  obtain ⟨t, ht, htag⟩ := List.mem_map.1 hmem
  exact (List.pairwise_cons.1 (List.pairwise_append.1 h).2.1).1 t ht hk htag.symm

theorem NamedOnce.replace (h : NamedOnce (above ++ k :: below)) (hk : k.name.anonymous = false)
    (hm : m.tag = k.tag) : NamedOnce (above ++ m :: below) := by
  obtain ⟨habove, hbelow, hcross⟩ := List.pairwise_append.1 h
  obtain ⟨hkbelow, hbelow⟩ := List.pairwise_cons.1 hbelow
  refine List.pairwise_append.2 ⟨habove, List.pairwise_cons.2 ⟨?_, hbelow⟩, ?_⟩
  · exact fun t ht _ => hm ▸ hkbelow t ht hk
  · intro t ht u hu hnamed
    rcases List.mem_cons.1 hu with rfl | hu
    · exact hm ▸ hcross t ht k List.mem_cons_self hnamed
    · exact hcross t ht u (List.mem_cons_of_mem k hu) hnamed

theorem distinct_append_cons (h : NamedOnce (above ++ k :: below))
    (hk : k.name.anonymous = false) : distinct (above ++ k :: below) =
      lay tag (fun x _ => x) (distinct above ++ [k]) below := by
  have hnew : k.tag ∉ (distinct above).map tag := by
    intro hmem
    obtain ⟨t, ht, htag⟩ := List.mem_map.1 hmem
    have habove := mem_of_mem_distinct (List.pairwise_append.1 h).1 ht
    exact h.notMem_above hk (htag ▸ List.mem_map_of_mem habove)
  rw [distinct_eq_lay h, Keyed.lay_append, Keyed.lay_cons,
    ← distinct_eq_lay (List.pairwise_append.1 h).1, Keyed.place_of_notMem hnew]

/-- A named subgraph is changed in its place. -/
theorem distinct_replace (h : NamedOnce (above ++ k :: below)) (hk : k.name.anonymous = false)
    {y : Graph ρ} (hky : k.tag = y.tag) {f : Graph ρ → Graph ρ} (hf : ∀ x, (f x).tag = x.tag) :
    distinct (above ++ f k :: below) = place tag f y (distinct (above ++ k :: below)) := by
  have hnamed : (f k).name.anonymous = false := named_of_tag_eq (hf k).symm hk
  have hnew : y.tag ∉ (distinct above).map tag := by
    intro hmem
    obtain ⟨t, ht, htag⟩ := List.mem_map.1 hmem
    have habove := mem_of_mem_distinct (List.pairwise_append.1 h).1 ht
    exact h.notMem_above hk (hky ▸ htag ▸ List.mem_map_of_mem habove)
  have hmem : y.tag ∈ (distinct above ++ [k]).map tag := by
    rw [List.map_append, ← hky]
    exact List.mem_append_right _ (List.mem_singleton_self _)
  rw [distinct_append_cons h hk, distinct_append_cons (h.replace hk (hf k)) hnamed,
    Keyed.place_lay_of_mem (fun _ _ => rfl) hf (hky ▸ h.notMem_below hk) hmem,
    Keyed.place_append_cons hnew hky]

theorem distinct_set {ts : List (Graph ρ)} (h : NamedOnce ts) {i : Nat} (hi : ts[i]? = some k)
    (hk : k.name.anonymous = false) {y : Graph ρ} (hky : k.tag = y.tag) {f : Graph ρ → Graph ρ}
    (hf : ∀ x, (f x).tag = x.tag) :
    distinct (ts.set i (f k)) = place tag f y (distinct ts) := by
  obtain ⟨hlt, rfl⟩ := List.getElem?_eq_some_iff.1 hi
  have hsplit : ts = ts.take i ++ ts[i] :: ts.drop (i + 1) := by
    rw [List.getElem_cons_drop, List.take_append_drop]
  rw [List.set_eq_take_append_cons_drop, if_pos hlt]
  conv_rhs => rw [hsplit]
  exact distinct_replace (hsplit ▸ h) hk hky hf

end InPlace

/-! ## Graphs -/

theorem Indexed.tidy_content {g : Graph ρ} (hg : g.Indexed)
    (h : ∀ s ∈ g.subgraphs, s.content.Tidy) : g.content.Tidy := by
  apply Tidy.intro
  · rw [nodes_content, List.map_map]
    exact hg.nodup_names
  · rw [subgraphs_content]
    exact nodup_tags_distinct hg.namedOnce
  · intro t ht hnamed
    rw [subgraphs_content] at ht
    obtain ⟨s, hs, rfl⟩ := List.mem_map.1 (mem_of_mem_distinct hg.namedOnce ht)
    rw [name_asMember] at hnamed
    rw [asMember_of_named hnamed]
    exact h s hs

/-- The content of a graph is tidy if, with all its subgraphs at any depth, it finds its members. -/
theorem tidy_content_of {p : Graph ρ → Prop} (hp : ∀ g, p g → g.Indexed ∧ ∀ s ∈ g.subgraphs, p s)
    (g : Graph ρ) (hg : p g) : g.content.Tidy := by
  refine (hp g hg).1.tidy_content fun s hs => ?_
  have hlt := sizeOf_subgraph hs
  exact tidy_content_of hp s ((hp g hg).2 s hs)
termination_by sizeOf g

theorem content_overlaid (a b : Graph ρ) :
    (a.overlaid b).content = a.content.overlaid b.content := by
  cases a
  cases b
  rfl

theorem content_appendNode {g : Graph ρ} (hg : g.Indexed) {n : Node ρ}
    (hf : g.nodeAt? n.name = none) : (g.appendNode n).content = g.content.layNodes [n.content] := by
  have hnew : n.content.name ∉ (g.nodes.map Node.content).map Node.name := by
    intro hmem
    rw [List.map_map] at hmem
    obtain ⟨i, hi⟩ := List.mem_iff_getElem?.1 hmem
    rw [List.getElem?_map] at hi
    have hpos := (hg.nodes n.name i).2 hi
    rw [hg.get?_of_nodeAt? hf] at hpos
    cases hpos
  have hnodes : lay Node.name Node.absorb g.content.nodes [n.content] =
      (g.nodes ++ [n]).map Node.content := by
    rw [nodes_content, List.map_append]
    exact Keyed.place_of_notMem hnew
  rw [layNodes, hnodes]
  cases g
  rfl

theorem content_setNode {g : Graph ρ} (hg : g.Indexed) {i : Nat} {known n m : Node ρ}
    (hi : g.nodes[i]? = some known) (hname : known.name = n.name)
    (hm : m.content = known.content.absorb n.content) :
    ({ g with nodes := g.nodes.set i m } : Graph ρ).content = g.content.layNodes [n.content] := by
  have hnames : ((g.nodes.map Node.content).map Node.name).Nodup := by
    rw [List.map_map]
    exact hg.nodup_names
  have hknown : (g.nodes.map Node.content)[i]? = some known.content := by
    rw [List.getElem?_map, hi]
    rfl
  have hnodes : lay Node.name Node.absorb g.content.nodes [n.content] =
      (g.nodes.set i m).map Node.content := by
    rw [nodes_content, List.map_set, hm]
    exact Keyed.place_eq_set (f := fun x => x.absorb n.content) (y := n.content) hnames hknown hname
  rw [layNodes, hnodes]
  cases g
  rfl

theorem content_of_subgraphs (g : Graph ρ) (ss : List (Graph ρ)) (index : Table Label Nat) :
    ({ g with subgraphs := ss, subgraphIndex := index } : Graph ρ).content =
      { g.content with subgraphs := distinct (ss.map asMember) } := by
  cases g
  rw [← contents_eq_map]
  rfl

/-- An anonymous subgraph is always appended, and listed once. -/
theorem content_appendSubgraph {g : Graph ρ} (hg : g.Indexed) {s : Graph ρ}
    (hf : g.subgraphAt? s.name = none) :
    (g.appendSubgraph s).content = g.content.laySubgraphs [s.asMember] := by
  have hnew : s.asMember.name.anonymous = false →
      s.asMember.tag ∉ (distinct (g.subgraphs.map asMember)).map tag := by
    intro hnamed hmem
    obtain ⟨t, ht, htag⟩ := List.mem_map.1 hmem
    obtain ⟨u, hu, rfl⟩ := List.mem_map.1 (mem_of_mem_distinct hg.namedOnce ht)
    have hunamed := named_of_tag_eq htag.symm hnamed
    rw [tag_of_named hnamed, tag_of_named hunamed, name_asMember, name_asMember] at htag
    rw [name_asMember] at hnamed
    -- the subgraph of this name would have a position
    obtain ⟨i, hi⟩ := List.mem_iff_getElem?.1 hu
    have hpos := (hg.subgraphs s.name i).2 ⟨hnamed, by rw [hi, ← Sum.inl.inj htag]; rfl⟩
    rw [hg.get?_of_subgraphAt? hf] at hpos
    cases hpos
  have hjoin : place tag (fun x => x) s.asMember (distinct (g.subgraphs.map asMember)) =
      place tag (fun x => x.join s.asMember) s.asMember (distinct (g.subgraphs.map asMember)) := by
    cases hs : s.asMember.name.anonymous with
    | false => rw [Keyed.place_of_notMem (hnew hs), Keyed.place_of_notMem (hnew hs)]
    | true =>
        refine Keyed.place_congr (fun x hx => (join_of_anonymous ?_ s.asMember).symm) _
        exact anonymous_of_tag_eq hx.symm hs
  have hlist : distinct ((g.subgraphs ++ [s]).map asMember) =
      place tag (fun x => x.join s.asMember) s.asMember g.content.subgraphs := by
    rw [subgraphs_content, ← hjoin, ← addDistinct_eq_place hnew, List.map_append, distinct,
      List.foldl_append]
    rfl
  rw [appendSubgraph, content_of_subgraphs, hlist]
  rfl

theorem content_setSubgraph {g : Graph ρ} (hg : g.Indexed) {i : Nat} {known s m : Graph ρ}
    (hnamed : known.name.anonymous = false) (hi : g.subgraphs[i]? = some known)
    (hname : known.name = s.name) (hmname : m.name = known.name)
    (hm : m.content = known.content.union s.content) :
    ({ g with subgraphs := g.subgraphs.set i m } : Graph ρ).content =
      g.content.laySubgraphs [s.asMember] := by
  have hsnamed : s.name.anonymous = false := hname ▸ hnamed
  have hmember : known.asMember.name.anonymous = false := (name_asMember known).symm ▸ hnamed
  have hknown : (g.subgraphs.map asMember)[i]? = some known.asMember := by
    rw [List.getElem?_map, hi]
    rfl
  have htag : known.asMember.tag = s.asMember.tag := by
    rw [tag_asMember, tag_asMember, tag_of_named hnamed, tag_of_named hsnamed, hname]
  have hjoined : m.asMember = known.asMember.join s.asMember := by
    rw [join_of_named hmember, asMember_of_named hnamed, asMember_of_named hsnamed,
      asMember_of_named (hmname ▸ hnamed), hm]
  have hlist : distinct ((g.subgraphs.set i m).map asMember) =
      place tag (fun x => x.join s.asMember) s.asMember g.content.subgraphs := by
    rw [subgraphs_content, List.map_set, hjoined]
    exact distinct_set hg.namedOnce hknown hmember htag (fun x => tag_join x s.asMember)
  rw [content_of_subgraphs, hlist]
  rfl

/-- Nodes and subgraphs are added to the content in turn. -/
theorem layNodes_append (g : Graph ρ) (ms ns : List (Node ρ)) :
    g.layNodes (ms ++ ns) = (g.layNodes ms).layNodes ns := by
  rw [layNodes, Keyed.lay_append]
  rfl

theorem laySubgraphs_append (g : Graph ρ) (ss ts : List (Graph ρ)) :
    g.laySubgraphs (ss ++ ts) = (g.laySubgraphs ss).laySubgraphs ts := by
  rw [laySubgraphs, Keyed.lay_append]
  rfl

/-- The union of contents is what the steps of merging result in. -/
theorem union_content (a : Graph ρ) {b : Graph ρ} (hb : b.Indexed) :
    a.content.union b.content = ((a.overlaid b).content.layNodes
      (b.nodes.map Node.content)).laySubgraphs (b.subgraphs.map asMember) := by
  have hsubgraphs : lay tag join a.content.subgraphs b.content.subgraphs =
      lay tag join a.content.subgraphs (b.subgraphs.map asMember) := by
    rw [subgraphs_content b]
    exact lay_distinct hb.namedOnce _
  rw [content_overlaid, union_eq, hsubgraphs, nodes_content b]
  rfl

end Graph

end DotDoc
