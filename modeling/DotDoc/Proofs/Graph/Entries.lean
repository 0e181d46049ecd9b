import DotDoc.Dot.Outline
import DotDoc.Proofs.Graph.Visits
import Mathlib.Data.List.Induction
import Mathlib.Data.List.Nodup

set_option autoImplicit false

/-!
# Entries of the collection

The collection has one entry for each key that is visited. The entry is what the visited sources of
that key make up when each absorbs the next one (`Graph.mem_sources_iff`). Graphs are alone under
their key, so the entry of a reached graph is the graph itself (`Graph.graph_mem_sources`). The
entry of a node name holds the links that the nodes of that name contribute in the order of their
visits: each of them those of its links that no earlier one holds (`Node.contributed`).

In a coherent graph every link of a reached source is a link of the entry of its key
(`Graph.link_mem_entry`).
-/

namespace DotDoc

variable {ρ : Type}

namespace Source

/-- What sources of one key make up together. -/
def joined : List (Source ρ) → Option (Source ρ)
  | [] => none
  | s :: rest => some (rest.foldl absorb s)

@[simp] theorem key_absorb (s t : Source ρ) : (s.absorb t).key = s.key := by
  cases s with
  | node a => cases t <;> rfl
  | graph g => cases t <;> rfl

theorem key_foldl_absorb (rest : List (Source ρ)) (s : Source ρ) :
    (rest.foldl absorb s).key = s.key := by
  induction rest generalizing s with
  | nil => rfl
  | cons t rest ih => rw [List.foldl_cons, ih, key_absorb]

theorem key_of_joined {ss : List (Source ρ)} {s : Source ρ} {k : SourceKey}
    (hk : ∀ t ∈ ss, t.key = k) (h : joined ss = some s) : s.key = k := by
  cases ss with
  | nil => cases h
  | cons t rest =>
      cases h
      rw [key_foldl_absorb, hk t List.mem_cons_self]

end Source

/-- Recording a source changes the entry of its key only. -/
theorem get?_recordSource (entries : Table SourceKey (Source ρ)) (s : Source ρ) (k : SourceKey) :
    (recordSource entries s).get? k =
      if k = s.key then some (((entries.get? k).map fun known => known.absorb s).getD s)
      else entries.get? k := by
  rw [recordSource, Table.get?_set]
  by_cases h : k = s.key
  · rw [if_pos h, if_pos h, h]
  · rw [if_neg h, if_neg h]

/-- The entry of a key after some sources were recorded. -/
theorem get?_foldl_recordSource (vs : List (Source ρ)) (k : SourceKey) :
    (vs.foldl recordSource ∅).get? k = Source.joined (vs.filter fun s => s.key = k) := by
  -- from the end, since the source that is recorded last is absorbed last
  induction vs using List.reverseRecOn with
  | nil => rfl
  | append_singleton vs s ih =>
      rw [List.foldl_append, List.foldl_cons, List.foldl_nil, get?_recordSource, ih,
        List.filter_append]
      by_cases h : k = s.key
      · rw [if_pos h, List.filter_cons_of_pos (by simpa using h.symm), List.filter_nil]
        cases hvs : vs.filter fun s => s.key = k with
        | nil => rfl
        | cons t rest =>
            rw [List.cons_append, Source.joined, Source.joined, List.foldl_append]
            rfl
      · rw [if_neg h, List.filter_cons_of_neg (by simpa using fun e => h e.symm), List.filter_nil,
          List.append_nil]

namespace Graph

variable {g : Graph ρ} {ss : List (Source ρ)}

/-- Every entry is kept under its own key. -/
theorem key_of_get?_recorded {vs : List (Source ρ)} {k : SourceKey} {s : Source ρ}
    (h : (vs.foldl recordSource ∅).get? k = some s) : s.key = k := by
  rw [get?_foldl_recordSource] at h
  apply Source.key_of_joined _ h
  intro t ht
  exact of_decide_eq_true (List.mem_filter.1 ht).2

/-- The collected sources are what the visited sources of their keys make up. -/
theorem mem_sources_iff (h : g.sources = .ok ss) {s : Source ρ} :
    s ∈ ss ↔ Source.joined (g.visits.filter fun t => t.key = s.key) = some s := by
  rw [sources_eq h, ← get?_foldl_recordSource]
  constructor
  · intro hs
    obtain ⟨⟨k, t⟩, he, rfl⟩ := List.mem_map.1 hs
    have hk := Table.get?_eq_some_iff.2 he
    rw [key_of_get?_recorded hk]
    exact hk
  · exact Table.mem_values_of_get?

/-- The keys of the collected sources are those under which they were recorded. -/
theorem keys_sources (h : g.sources = .ok ss) :
    ss.map Source.key = (g.visits.foldl recordSource ∅).keys := by
  rw [sources_eq h, Table.values, Table.keys, List.map_map]
  apply List.map_congr_left
  intro e he
  exact key_of_get?_recorded (Table.get?_eq_some_iff.2 he)

/-- No two collected sources have the same key. -/
theorem nodup_keys_sources (h : g.sources = .ok ss) : (ss.map Source.key).Nodup := by
  rw [keys_sources h]
  exact Table.nodup_keys _

/-- Two collected sources of one key are the same. -/
theorem sources_eq_of_key (h : g.sources = .ok ss) {s t : Source ρ} (hs : s ∈ ss) (ht : t ∈ ss)
    (hk : s.key = t.key) : s = t :=
  List.inj_on_of_nodup_map (nodup_keys_sources h) hs ht hk

/-- Every visited source has an entry. -/
theorem exists_entry (h : g.sources = .ok ss) {v : Source ρ} (hv : v ∈ g.visits) :
    ∃ s ∈ ss, s.key = v.key := by
  have hmem : v ∈ g.visits.filter fun t => t.key = v.key := by simp [hv]
  cases hf : g.visits.filter fun t => t.key = v.key with
  | nil =>
      rw [hf] at hmem
      exact absurd hmem List.not_mem_nil
  | cons t rest =>
      have ht : t.key = v.key := by
        have : t ∈ g.visits.filter fun t => t.key = v.key := by
          rw [hf]
          exact List.mem_cons_self
        exact of_decide_eq_true (List.mem_filter.1 this).2
      have hkey : (rest.foldl Source.absorb t).key = v.key := by rw [Source.key_foldl_absorb, ht]
      refine ⟨rest.foldl Source.absorb t, (mem_sources_iff h).2 ?_, hkey⟩
      rw [hkey, hf]
      rfl

/-- Every entry is for a visited source. -/
theorem exists_visit (h : g.sources = .ok ss) {s : Source ρ} (hs : s ∈ ss) :
    ∃ v ∈ g.visits, v.key = s.key := by
  have hj := (mem_sources_iff h).1 hs
  cases hf : g.visits.filter fun t => t.key = s.key with
  | nil =>
      rw [hf] at hj
      cases hj
  | cons v rest =>
      have hv : v ∈ g.visits.filter fun t => t.key = s.key := hf ▸ List.mem_cons_self
      exact ⟨v, (List.mem_filter.1 hv).1, of_decide_eq_true (List.mem_filter.1 hv).2⟩

/-! ## Entries of graphs -/

theorem foldl_absorb_graph (rest : List (Source ρ)) (h : Graph ρ) :
    rest.foldl Source.absorb (.graph h) = .graph h := by
  induction rest with
  | nil => rfl
  | cons t rest ih =>
      rw [List.foldl_cons]
      cases t <;> exact ih

theorem eq_graph_of_key {s : Source ρ} {i : Nat} (h : s.key = .graph i) :
    ∃ k : Graph ρ, s = .graph k ∧ k.ident = i := by
  cases s with
  | node n => cases h
  | graph k =>
      cases h
      exact ⟨k, rfl, rfl⟩

/-- The collected graphs are the visited ones. -/
theorem graph_mem_sources (h : g.sources = .ok ss) {k : Graph ρ} :
    .graph k ∈ ss ↔ .graph k ∈ g.visits := by
  rw [mem_sources_iff h]
  cases hf : g.visits.filter fun t => t.key = (Source.graph k).key with
  | nil =>
      constructor
      · intro hj
        cases hj
      · intro hk
        have : Source.graph k ∈ g.visits.filter fun t => t.key = (Source.graph k).key := by
          simp [hk]
        rw [hf] at this
        exact absurd this List.not_mem_nil
  | cons t rest =>
      have ht : t ∈ g.visits.filter fun t => t.key = (Source.graph k).key := by
        rw [hf]
        exact List.mem_cons_self
      obtain ⟨htv, htk⟩ := List.mem_filter.1 ht
      obtain ⟨k', rfl, hi⟩ := eq_graph_of_key (of_decide_eq_true htk)
      -- a graph absorbs nothing, so the entry is the graph that was visited first
      rw [Source.joined, foldl_absorb_graph, Option.some.injEq]
      constructor
      · exact fun e => e ▸ htv
      · exact fun hk => List.inj_on_of_nodup_map g.nodup_visits htv hk hi

theorem graph_mem_of_reached (hg : g.Coherent) (h : g.sources = .ok ss) {k : Graph ρ}
    (hk : g.Reached (.graph k)) : .graph k ∈ ss :=
  (graph_mem_sources h).2 ((mem_visits hg).2 hk)

end Graph

/-! ## Entries of node names -/

namespace Link

/-- A link of that number is among the links. -/
def among (ls : List (Link ρ)) (i : Nat) : Bool := ls.any fun l => l.ident == i

/-- How often a link of that number is among the links. -/
def times (ls : List (Link ρ)) (i : Nat) : Nat := ls.countP fun l => l.ident == i

theorem among_append (ls ms : List (Link ρ)) (i : Nat) :
    among (ls ++ ms) i = (among ls i || among ms i) :=
  List.any_append

theorem among_iff {ls : List (Link ρ)} {i : Nat} : among ls i = true ↔ ∃ l ∈ ls, l.ident = i := by
  rw [among, List.any_eq_true]
  simp only [beq_iff_eq]

theorem times_append (ls ms : List (Link ρ)) (i : Nat) :
    times (ls ++ ms) i = times ls i + times ms i :=
  List.countP_append

theorem times_pos_iff {ls : List (Link ρ)} {i : Nat} : 0 < times ls i ↔ among ls i = true := by
  rw [times, List.countP_pos_iff, among, List.any_eq_true]

theorem times_eq_zero {ls : List (Link ρ)} {i : Nat} (h : among ls i = false) :
    times ls i = 0 := by
  apply Nat.eq_zero_of_not_pos
  intro hp
  rw [times_pos_iff, h] at hp
  exact Bool.false_ne_true hp

/-- Links that are known are not counted beyond the known ones. -/
theorem times_beyond (known added : List (Link ρ)) (i : Nat) :
    times (beyond known added) i = if among known i then 0 else times added i := by
  by_cases hk : among known i = true
  · rw [if_pos hk]
    apply times_eq_zero
    rw [Bool.eq_false_iff]
    intro h
    obtain ⟨l, hl, hi⟩ := among_iff.1 h
    obtain ⟨-, hnot⟩ := List.mem_filter.1 hl
    subst hi
    rw [show (known.any fun k => k.ident == l.ident) = true from hk] at hnot
    exact Bool.false_ne_true hnot
  · rw [if_neg hk, times, beyond, List.countP_filter, times]
    apply List.countP_congr
    intro l _
    rw [Bool.and_eq_true, beq_iff_eq]
    constructor
    · exact fun h => h.1
    · rintro rfl
      refine ⟨rfl, ?_⟩
      rw [show (known.any fun k => k.ident == l.ident) = false from Bool.eq_false_iff.2 hk]
      rfl

end Link

namespace Node

/-- The links that nodes contribute one after the other where some links are held already: each
node those that neither are held already nor belong to an earlier node. -/
def contributed (held : List (Link ρ)) : List (Node ρ) → List (Link ρ)
  | [] => []
  | n :: rest => Link.beyond held n.links ++ contributed (held ++ n.links) rest

theorem contributed_congr {held held' : List (Link ρ)}
    (h : ∀ i, Link.among held i = Link.among held' i) (ns : List (Node ρ)) :
    contributed held ns = contributed held' ns := by
  induction ns generalizing held held' with
  | nil => rfl
  | cons n rest ih =>
      have hb : Link.beyond held n.links = Link.beyond held' n.links :=
        List.filter_congr fun l _ => congrArg (!·) (h l.ident)
      have hrest : ∀ i, Link.among (held ++ n.links) i = Link.among (held' ++ n.links) i := by
        intro i
        rw [Link.among_append, Link.among_append, h]
      rw [contributed, contributed, hb, ih hrest]

theorem among_absorb (a b : Node ρ) (i : Nat) :
    Link.among (a.absorb b).links i = Link.among (a.links ++ b.links) i := by
  show Link.among (a.links ++ Link.beyond a.links b.links) i = _
  rw [Link.among_append, Link.among_append, Bool.eq_iff_iff, Bool.or_eq_true, Bool.or_eq_true]
  by_cases ha : Link.among a.links i = true
  · exact ⟨fun _ => .inl ha, fun _ => .inl ha⟩
  · have hbeyond : Link.among (Link.beyond a.links b.links) i = true ↔
        Link.among b.links i = true := by
      rw [← Link.times_pos_iff, Link.times_beyond, if_neg ha, Link.times_pos_iff]
    rw [hbeyond]

/-- The links of nodes that were absorbed one after the other. -/
theorem links_foldl_absorb (ns : List (Node ρ)) (n : Node ρ) :
    (ns.foldl absorb n).links = n.links ++ contributed n.links ns := by
  induction ns generalizing n with
  | nil => exact (List.append_nil _).symm
  | cons m rest ih =>
      rw [List.foldl_cons, ih, contributed, contributed_congr (among_absorb n m),
        ← List.append_assoc]
      rfl

theorem mem_entries_foldl_absorb {ns : List (Node ρ)} {n : Node ρ} {e : String × AttrValue}
    (h : e ∈ (ns.foldl absorb n).attrs.entries) : ∃ m ∈ n :: ns, e ∈ m.attrs.entries := by
  induction ns generalizing n with
  | nil => exact ⟨n, List.mem_cons_self, h⟩
  | cons m rest ih =>
      obtain ⟨k, hk, he⟩ := ih h
      rcases List.mem_cons.1 hk with rfl | hk
      · rcases Table.mem_entries_overlay he with he | he
        · exact ⟨n, List.mem_cons_self, he⟩
        · exact ⟨m, .tail n List.mem_cons_self, he⟩
      · exact ⟨k, .tail n (.tail m hk), he⟩

theorem mem_of_mem_contributed {held : List (Link ρ)} {ns : List (Node ρ)} {l : Link ρ}
    (h : l ∈ contributed held ns) : ∃ n ∈ ns, l ∈ n.links := by
  induction ns generalizing held with
  | nil => exact absurd h List.not_mem_nil
  | cons n rest ih =>
      rcases List.mem_append.1 h with h | h
      · exact ⟨n, List.mem_cons_self, (List.mem_filter.1 h).1⟩
      · obtain ⟨m, hm, hl⟩ := ih h
        exact ⟨m, List.mem_cons_of_mem n hm, hl⟩

/-- The node holds a link of that number. -/
def holdsLink (i : Nat) (n : Node ρ) : Bool := Link.among n.links i

/-- How often a link is contributed: as often as the first node that holds it does, unless it was
held already. -/
theorem times_contributed (held : List (Link ρ)) (ns : List (Node ρ)) (i : Nat) :
    Link.times (contributed held ns) i =
      if Link.among held i then 0
      else (ns.find? (holdsLink i)).elim 0 fun n => Link.times n.links i := by
  induction ns generalizing held with
  | nil =>
      rw [contributed, List.find?_nil]
      exact (ite_self 0).symm
  | cons n rest ih =>
      -- what the first node holds counts as held for the rest
      rw [contributed, Link.times_append, Link.times_beyond, ih, Link.among_append]
      by_cases hh : Link.among held i = true
      · simp [hh]
      · by_cases hn : holdsLink i n = true
        · rw [List.find?_cons_of_pos hn]
          simp [hh, show Link.among n.links i = true from hn]
        · have hf : Link.among n.links i = false := Bool.eq_false_iff.2 hn
          rw [List.find?_cons_of_neg hn, Link.times_eq_zero hf]
          simp [hh, hf]

end Node

theorem Source.mem_nodes {ss : List (Source ρ)} {n : Node ρ} :
    n ∈ Source.nodes ss ↔ .node n ∈ ss := by
  rw [Source.nodes, List.mem_filterMap]
  constructor
  · rintro ⟨s, hs, hsome⟩
    cases s with
    | node m =>
        cases hsome
        exact hs
    | graph h => cases hsome
  · exact fun h => ⟨.node n, h, rfl⟩

namespace Graph

variable {g : Graph ρ} {ss : List (Source ρ)}

/-- The visited nodes of a name, in the order of their visits. -/
def nodesNamed (g : Graph ρ) (name : Label) : List (Node ρ) :=
  (Source.nodes g.visits).filter fun n => n.name = name

theorem mem_nodesNamed {name : Label} {n : Node ρ} :
    n ∈ g.nodesNamed name ↔ .node n ∈ g.visits ∧ n.name = name := by
  rw [nodesNamed, List.mem_filter, Source.mem_nodes, decide_eq_true_iff]

theorem filter_key_node (vs : List (Source ρ)) (name : Label) :
    (vs.filter fun t => t.key = .node name) =
      ((Source.nodes vs).filter fun n => n.name = name).map .node := by
  induction vs with
  | nil => rfl
  | cons s rest ih =>
      cases s with
      | graph h =>
          rw [List.filter_cons_of_neg (by simp [Source.key]), ih]
          rfl
      | node n =>
          show _ = ((n :: Source.nodes rest).filter fun n => n.name = name).map Source.node
          by_cases hn : n.name = name
          · rw [List.filter_cons_of_pos (by simpa [Source.key] using hn),
              List.filter_cons_of_pos (by simpa using hn), ih, List.map_cons]
          · rw [List.filter_cons_of_neg (by simpa [Source.key] using hn),
              List.filter_cons_of_neg (by simpa using hn), ih]

theorem foldl_absorb_node (ns : List (Node ρ)) (n : Node ρ) :
    (ns.map Source.node).foldl Source.absorb (.node n) = .node (ns.foldl Node.absorb n) := by
  induction ns generalizing n with
  | nil => rfl
  | cons m rest ih => exact ih (n.absorb m)

/-- The entry of a node name is what the visited nodes of that name make up. -/
theorem exists_foldl_absorb (h : g.sources = .ok ss) {m : Node ρ} (hm : .node m ∈ ss) :
    ∃ n rest, g.nodesNamed m.name = n :: rest ∧ m = rest.foldl Node.absorb n := by
  rw [mem_sources_iff h] at hm
  have hf : (g.visits.filter fun t => t.key = (Source.node m).key) =
      (g.nodesNamed m.name).map Source.node := filter_key_node g.visits m.name
  rw [hf] at hm
  cases hns : g.nodesNamed m.name with
  | nil =>
      rw [hns] at hm
      cases hm
  | cons n rest =>
      rw [hns, List.map_cons, Source.joined, foldl_absorb_node] at hm
      exact ⟨n, rest, rfl, (Source.node.inj (Option.some.inj hm)).symm⟩

/-- **The entry of a node name holds what the nodes of that name contribute.** -/
theorem links_of_node_mem_sources (h : g.sources = .ok ss) {m : Node ρ} (hm : .node m ∈ ss) :
    m.links = Node.contributed [] (g.nodesNamed m.name) := by
  obtain ⟨n, rest, hns, hfold⟩ := exists_foldl_absorb h hm
  rw [hns, hfold, Node.links_foldl_absorb, Node.contributed, Link.beyond]
  simp

/-- The attributes of the entry of a node name are those of visited nodes of that name. -/
theorem exists_node_of_attr (h : g.sources = .ok ss) {m : Node ρ} (hm : .node m ∈ ss)
    {e : String × AttrValue} (he : e ∈ m.attrs.entries) :
    ∃ n ∈ g.nodesNamed m.name, e ∈ n.attrs.entries := by
  obtain ⟨n, rest, hns, hfold⟩ := exists_foldl_absorb h hm
  rw [hns]
  rw [hfold] at he
  exact Node.mem_entries_foldl_absorb he

/-- A link of a visited node is contributed by some visited node of that name. -/
theorem exists_contributed {n : Node ρ} (hv : .node n ∈ g.visits) {l : Link ρ}
    (hl : l ∈ n.links) :
    ∃ k ∈ Node.contributed [] (g.nodesNamed n.name), k.ident = l.ident := by
  have hholds : n.holdsLink l.ident = true := Link.among_iff.2 ⟨l, hl, rfl⟩
  apply Link.among_iff.1
  rw [← Link.times_pos_iff, Node.times_contributed]
  cases hf : (g.nodesNamed n.name).find? (Node.holdsLink l.ident) with
  | none => exact absurd hholds (List.find?_eq_none.1 hf n (mem_nodesNamed.2 ⟨hv, rfl⟩))
  | some first =>
      have hfirst : first.holdsLink l.ident = true := List.find?_some hf
      exact Link.times_pos_iff.2 hfirst

/-- Every link of a visited source is a link of the entry of its key. -/
theorem link_mem_entry (hg : g.Coherent) (h : g.sources = .ok ss) {v s : Source ρ}
    (hv : v ∈ g.visits) (hs : s ∈ ss) (hk : s.key = v.key) {l : Link ρ} (hl : l ∈ v.links) :
    l ∈ s.links := by
  cases v with
  | graph k =>
      have hk' := (graph_mem_sources h).2 hv
      rwa [sources_eq_of_key h hs hk' hk]
  | node n =>
      cases s with
      | graph k => cases hk
      | node m =>
          have hname : m.name = n.name := SourceKey.node.inj hk
          show l ∈ m.links
          rw [links_of_node_mem_sources h hs, hname]
          -- the contributed link of this number is the link itself
          obtain ⟨k, hkc, hi⟩ := exists_contributed hv hl
          obtain ⟨n', hn', hkn⟩ := Node.mem_of_mem_contributed hkc
          have hholds := (reached_of_mem_visits (mem_nodesNamed.1 hn').1).holds
          have hkl : k = l := hg.link_eq hholds (reached_of_mem_visits hv).holds hkn hl hi
          exact hkl ▸ hkc

end Graph

end DotDoc
