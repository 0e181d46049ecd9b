import DotDoc.Graph.Merge
import Mathlib.Data.List.Nodup

set_option autoImplicit false

/-!
# Members and their index

A graph finds its members by tables of their positions. The tables fit the members if they give
exactly the position of each node by its name and of each named subgraph by its name, so that no
name occurs twice (`Graph.Indexed`). A new member at the end and a member of the same name in place
of another keep it so (`Indexed.appendNode`, `Indexed.setNode`, `Indexed.appendSubgraph`,
`Indexed.setSubgraph`). Then members are told apart by their names, and the tables have an entry for
each of the names and no other one (`Indexed.represents`).
-/

namespace DotDoc

variable {ρ : Type}

namespace Graph

/-- The index of the graph gives the positions of its members, and links that leave the graph have
no source port. -/
structure Indexed (g : Graph ρ) : Prop where
  nodes : ∀ name i, g.nodeIndex.get? name = some i ↔ (g.nodes[i]?).map Node.name = some name
  subgraphs : ∀ name i, g.subgraphIndex.get? name = some i ↔
    name.anonymous = false ∧ (g.subgraphs[i]?).map Graph.name = some name
  links : ∀ l ∈ g.links, l.sourcePort.isEmpty = true

/-! ## Finding members -/

theorem nodeAt?_eq_some {g : Graph ρ} {name : Label} {i : Nat} {n : Node ρ}
    (h : g.nodeAt? name = some (i, n)) :
    g.nodeIndex.get? name = some i ∧ g.nodes[i]? = some n := by
  unfold nodeAt? at h
  cases hi : g.nodeIndex.get? name with
  | none => simp [hi] at h
  | some j =>
      cases hn : g.nodes[j]? with
      | none => simp [hi, hn] at h
      | some m =>
          simp only [hi, hn, Option.bind_eq_bind, Option.bind_some, Option.pure_def,
            Option.some.injEq, Prod.mk.injEq] at h
          obtain ⟨rfl, rfl⟩ := h
          exact ⟨rfl, hn⟩

theorem subgraphAt?_eq_some {g s : Graph ρ} {name : Label} {i : Nat}
    (h : g.subgraphAt? name = some (i, s)) :
    name.anonymous = false ∧ g.subgraphIndex.get? name = some i ∧ g.subgraphs[i]? = some s := by
  unfold subgraphAt? at h
  cases ha : name.anonymous with
  | true => simp [ha] at h
  | false =>
      cases hi : g.subgraphIndex.get? name with
      | none => simp [ha, hi] at h
      | some j =>
          cases hs : g.subgraphs[j]? with
          | none => simp [ha, hi, hs] at h
          | some t =>
              simp only [ha, hi, hs, Bool.false_eq_true, if_false, Option.bind_eq_bind,
                Option.bind_some, Option.pure_def, Option.some.injEq, Prod.mk.injEq] at h
              obtain ⟨rfl, rfl⟩ := h
              exact ⟨rfl, rfl, hs⟩

/-- A name at which nothing is found has no place in the index. -/
theorem Indexed.get?_of_nodeAt? {g : Graph ρ} (hg : g.Indexed) {name : Label}
    (h : g.nodeAt? name = none) : g.nodeIndex.get? name = none := by
  cases hi : g.nodeIndex.get? name with
  | none => rfl
  | some i =>
      have hn := (hg.nodes name i).1 hi
      obtain ⟨n, hn, -⟩ := Option.map_eq_some_iff.1 hn
      simp [nodeAt?, hi, hn] at h

theorem Indexed.get?_of_subgraphAt? {g : Graph ρ} (hg : g.Indexed) {name : Label}
    (h : g.subgraphAt? name = none) : g.subgraphIndex.get? name = none := by
  cases hi : g.subgraphIndex.get? name with
  | none => rfl
  | some i =>
      obtain ⟨ha, hs⟩ := (hg.subgraphs name i).1 hi
      obtain ⟨s, hs, -⟩ := Option.map_eq_some_iff.1 hs
      simp [subgraphAt?, ha, hi, hs] at h

/-- A node that is found has the name at which it is found, and so has a subgraph. -/
theorem Indexed.name_of_nodeAt? {g : Graph ρ} (hg : g.Indexed) {name : Label} {i : Nat}
    {n : Node ρ} (h : g.nodeAt? name = some (i, n)) : n.name = name := by
  obtain ⟨hpos, hi⟩ := nodeAt?_eq_some h
  have hn := (hg.nodes name i).1 hpos
  rw [hi] at hn
  exact Option.some.inj hn

theorem Indexed.name_of_subgraphAt? {g s : Graph ρ} (hg : g.Indexed) {name : Label} {i : Nat}
    (h : g.subgraphAt? name = some (i, s)) : s.name = name := by
  obtain ⟨-, hpos, hi⟩ := subgraphAt?_eq_some h
  have hs := ((hg.subgraphs name i).1 hpos).2
  rw [hi] at hs
  exact Option.some.inj hs

/-- No two nodes of the graph have the same name. -/
theorem Indexed.nodup_names {g : Graph ρ} (hg : g.Indexed) : (g.nodes.map Node.name).Nodup := by
  rw [List.nodup_iff_injective_getElem]
  intro i j hij
  -- both are the position of the name
  have hpos : ∀ k : Fin (g.nodes.map Node.name).length,
      g.nodeIndex.get? (g.nodes.map Node.name)[k] = some k.1 := by
    intro k
    rw [hg.nodes, ← List.getElem?_map]
    exact List.getElem?_eq_getElem k.2
  have hi := hpos i
  rw [show (g.nodes.map Node.name)[i] = (g.nodes.map Node.name)[j] from hij, hpos j] at hi
  exact Fin.ext (Option.some.inj hi).symm

/-- No two named subgraphs of the graph have the same name. -/
theorem Indexed.nodup_subgraphNames {g : Graph ρ} (hg : g.Indexed) :
    ((g.subgraphs.map Graph.name).filter fun name => !name.anonymous).Nodup := by
  rw [List.nodup_iff_pairwise_ne, List.pairwise_filter, List.pairwise_iff_getElem]
  intro i j hi hj hij hnamed _ heq
  -- both are the position of the name
  have hpos : ∀ k (hk : k < (g.subgraphs.map Graph.name).length),
      (g.subgraphs.map Graph.name)[k].anonymous = false →
      g.subgraphIndex.get? (g.subgraphs.map Graph.name)[k] = some k := by
    intro k hk hname
    rw [hg.subgraphs, ← List.getElem?_map]
    exact ⟨hname, List.getElem?_eq_getElem hk⟩
  have hname : (g.subgraphs.map Graph.name)[i].anonymous = false := by simpa using hnamed
  have hposi := hpos i hi hname
  rw [heq, hpos j hj (heq ▸ hname)] at hposi
  exact absurd (Option.some.inj hposi).symm (Nat.ne_of_lt hij)

/-- How a graph keeps its members and tables. Nodes differ in their names, and so do subgraphs that
have one. The tables of positions have an entry for each of these names, with the position of the
member that bears it, and none besides; so anonymous subgraphs have no entry. Links leave the graph
at no port, and in each attribute table no key comes twice. -/
structure Represented (g : Graph ρ) : Prop where
  nodeNames : (g.nodes.map Node.name).Nodup
  nodeIndex : ∀ name i, (name, i) ∈ g.nodeIndex.entries ↔
    ∃ n, g.nodes[i]? = some n ∧ n.name = name
  subgraphNames : ((g.subgraphs.map Graph.name).filter fun name => !name.anonymous).Nodup
  subgraphIndex : ∀ name i, (name, i) ∈ g.subgraphIndex.entries ↔
    name.anonymous = false ∧ ∃ s, g.subgraphs[i]? = some s ∧ s.name = name
  links : ∀ l ∈ g.links, l.sourcePort.isEmpty = true
  tables : ∀ slot, (g.table slot).keys.Nodup

theorem Indexed.represents {g : Graph ρ} (hg : g.Indexed) : g.Represented where
  nodeNames := hg.nodup_names
  nodeIndex name i := by rw [← Table.get?_eq_some_iff, hg.nodes, Option.map_eq_some_iff]
  subgraphNames := hg.nodup_subgraphNames
  subgraphIndex name i := by rw [← Table.get?_eq_some_iff, hg.subgraphs, Option.map_eq_some_iff]
  links := hg.links
  tables slot := (g.table slot).nodup_keys

/-! ## Changing members -/

/-- The last place of a longer list holds the new item, and the other places what they held. -/
theorem getElem?_concat_iff {α : Type} {xs : List α} {new x : α} {i : Nat} :
    (xs ++ [new])[i]? = some x ↔ xs[i]? = some x ∨ (i = xs.length ∧ new = x) := by
  rcases Nat.lt_trichotomy i xs.length with hlt | rfl | hgt
  · rw [List.getElem?_append_left hlt]
    constructor
    · exact .inl
    · rintro (h | ⟨rfl, -⟩)
      · exact h
      · exact absurd hlt (Nat.lt_irrefl _)
  · rw [List.getElem?_concat_length, List.getElem?_eq_none (Nat.le_refl _), Option.some.injEq]
    simp
  · rw [List.getElem?_eq_none (Nat.le_of_lt hgt), List.getElem?_eq_none]
    · have hne : i ≠ xs.length := Nat.ne_of_gt hgt
      simp [hne]
    · rw [List.length_append, List.length_singleton]
      exact hgt

section Positions

variable {t : Table Label Nat} {p : Label → Prop} {names : List Label} {new : Label}

/-- The positions of the names that `p` admits still fit when such a name is put at the end. -/
theorem get?_set_concat (ht : ∀ name i, t.get? name = some i ↔ p name ∧ names[i]? = some name)
    (hp : p new) (hnew : t.get? new = none) (name : Label) (i : Nat) :
    (t.set new names.length).get? name = some i ↔
      p name ∧ (names ++ [new])[i]? = some name := by
  rw [Table.get?_set, getElem?_concat_iff]
  by_cases hname : name = new
  · subst hname
    -- the name is nowhere else, for it had no position
    have hnowhere : names[i]? ≠ some name := by
      intro hi
      rw [(ht name i).2 ⟨hp, hi⟩] at hnew
      cases hnew
    simp [hp, hnowhere, eq_comm]
  · have hne : new ≠ name := Ne.symm hname
    rw [if_neg hname, ht]
    simp [hne]

/-- They also fit when a name is put at the end that `p` does not admit. -/
theorem get?_concat (ht : ∀ name i, t.get? name = some i ↔ p name ∧ names[i]? = some name)
    (hp : ¬ p new) (name : Label) (i : Nat) :
    t.get? name = some i ↔ p name ∧ (names ++ [new])[i]? = some name := by
  rw [ht, getElem?_concat_iff]
  constructor
  · rintro ⟨h, hi⟩
    exact ⟨h, .inl hi⟩
  · rintro ⟨h, hi | ⟨-, rfl⟩⟩
    · exact ⟨h, hi⟩
    · exact absurd h hp

end Positions

theorem indexed_make (i : Nat) (name : Label) (directed strict : Bool)
    (attrs graphs nodes links : AttrTable) :
    ({ ident := i, name, directed, strict, attrs, graphAttrs := graphs, nodeAttrs := nodes,
       linkAttrs := links, nodes := [], nodeIndex := ∅, subgraphs := [], subgraphIndex := ∅,
       links := [] } : Graph ρ).Indexed where
  nodes name i := by simp [Table.get?_empty, EmptyCollection.emptyCollection]
  subgraphs name i := by simp [Table.get?_empty, EmptyCollection.emptyCollection]
  links l hl := absurd hl List.not_mem_nil

theorem Indexed.appendNode {g : Graph ρ} (hg : g.Indexed) {n : Node ρ}
    (h : g.nodeAt? n.name = none) : (g.appendNode n).Indexed where
  nodes name i := by
    have hnodes : ∀ name i, g.nodeIndex.get? name = some i ↔
        True ∧ (g.nodes.map Node.name)[i]? = some name := by
      intro name i
      rw [List.getElem?_map, true_and]
      exact hg.nodes name i
    have hset := get?_set_concat hnodes trivial (hg.get?_of_nodeAt? h) name i
    rw [List.length_map, true_and] at hset
    show (g.nodeIndex.set n.name g.nodes.length).get? name = some i ↔
      ((g.nodes ++ [n])[i]?).map Node.name = some name
    rw [hset, ← List.getElem?_map, List.map_append, List.map_singleton]
  subgraphs := hg.subgraphs
  links := hg.links

/-- A node in the place of one of the same name. -/
theorem Indexed.setNode {g : Graph ρ} (hg : g.Indexed) {i : Nat} {known n : Node ρ}
    (hk : g.nodes[i]? = some known) (hname : n.name = known.name) :
    ({ g with nodes := g.nodes.set i n } : Graph ρ).Indexed where
  nodes name j := by
    show g.nodeIndex.get? name = some j ↔ ((g.nodes.set i n)[j]?).map Node.name = some name
    rw [hg.nodes, List.getElem?_set]
    by_cases hij : i = j
    · subst hij
      have hlt := (List.getElem?_eq_some_iff.1 hk).1
      rw [if_pos rfl, if_pos hlt, hk, Option.map_some, Option.map_some, hname]
    · rw [if_neg hij]
  subgraphs := hg.subgraphs
  links := hg.links

theorem Indexed.appendSubgraph {g : Graph ρ} (hg : g.Indexed) {s : Graph ρ}
    (h : g.subgraphAt? s.name = none) : (g.appendSubgraph s).Indexed where
  nodes := hg.nodes
  subgraphs name i := by
    have hsubs : ∀ name i, g.subgraphIndex.get? name = some i ↔
        name.anonymous = false ∧ (g.subgraphs.map Graph.name)[i]? = some name := by
      intro name i
      rw [List.getElem?_map]
      exact hg.subgraphs name i
    show (if s.name.anonymous then g.subgraphIndex
        else g.subgraphIndex.set s.name g.subgraphs.length).get? name = some i ↔
      name.anonymous = false ∧ ((g.subgraphs ++ [s])[i]?).map Graph.name = some name
    rw [← List.getElem?_map, List.map_append, List.map_singleton]
    cases ha : s.name.anonymous with
    | true =>
        have hnot : ¬ s.name.anonymous = false := by
          rw [ha]
          exact Bool.noConfusion
        exact get?_concat hsubs hnot name i
    | false =>
        have hset := get?_set_concat hsubs ha (hg.get?_of_subgraphAt? h) name i
        rw [List.length_map] at hset
        exact hset
  links := hg.links

/-- A subgraph in the place of one of the same name. -/
theorem Indexed.setSubgraph {g : Graph ρ} (hg : g.Indexed) {i : Nat} {known s : Graph ρ}
    (hk : g.subgraphs[i]? = some known) (hname : s.name = known.name) :
    ({ g with subgraphs := g.subgraphs.set i s } : Graph ρ).Indexed where
  nodes := hg.nodes
  subgraphs name j := by
    show g.subgraphIndex.get? name = some j ↔
      name.anonymous = false ∧ ((g.subgraphs.set i s)[j]?).map Graph.name = some name
    rw [hg.subgraphs, List.getElem?_set]
    by_cases hij : i = j
    · subst hij
      have hlt := (List.getElem?_eq_some_iff.1 hk).1
      rw [if_pos rfl, if_pos hlt, hk, Option.map_some, Option.map_some, hname]
    · rw [if_neg hij]
  links := hg.links

/-- A graph with the links of another one added. -/
theorem Indexed.overlaid {a b : Graph ρ} (ha : a.Indexed) (hb : b.Indexed) :
    (a.overlaid b).Indexed where
  nodes := ha.nodes
  subgraphs := ha.subgraphs
  links l hl := by
    rcases List.mem_append.1 hl with hl | hl
    · exact ha.links l hl
    · exact hb.links l (List.mem_filter.1 hl).1

end Graph

end DotDoc
