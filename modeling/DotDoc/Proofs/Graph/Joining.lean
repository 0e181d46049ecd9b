import DotDoc.Proofs.Graph.Index
import DotDoc.Proofs.Graph.Laying

set_option autoImplicit false

/-!
# Joining members by their names

Members of one graph are placed one after the other in another graph. A member whose name is known
there is merged into the one that bears it; any other one is put at the end, and so are all members
without a name. What comes of this is described for lists of items that may have keys
(`Keyed.Joined`): for each key it holds the item of one of the lists, or what the items of both make
up (`Keyed.Meets`).

If the lists are those of the members of two graphs, this is what placing nodes and subgraphs comes
to (`Graph.placeNodes_joined`, `Graph.placeSubgraphs_joined`), so it is what merging graphs does to
their members (`Graph.merge_joined`).
-/

namespace DotDoc

variable {ρ : Type}

/-! ## Items with keys -/

namespace Keyed

variable {α κ : Type}

/-- What comes of two values that may be missing: what is alone stays as it is, and of two there
comes what they make up. -/
inductive Meets (R : α → α → α → Prop) : Option α → Option α → Option α → Prop
  | neither : Meets R none none none
  | left (x : α) : Meets R (some x) none (some x)
  | right (y : α) : Meets R none (some y) (some y)
  | both {x y z : α} : R x y z → Meets R (some x) (some y) (some z)

variable [DecidableEq κ] (key? : α → Option κ)

/-- The first item with the key. -/
def find? (xs : List α) (k : κ) : Option α := xs.find? fun x => key? x = some k

/-- The third list is the first one with the items of the second placed in it. Here `R` tells what
two items of one key make up. -/
structure Joined (R : α → α → α → Prop) (xs ys zs : List α) : Prop where
  /-- The keys of the first list come first, then those that are new. -/
  keys : zs.filterMap key? =
    xs.filterMap key? ++ (ys.filterMap key?).filter (· ∉ xs.filterMap key?)
  /-- All items without a key are there, those of the first list first. -/
  unnamed : zs.filter (fun z => (key? z).isNone) =
    xs.filter (fun x => (key? x).isNone) ++ ys.filter fun y => (key? y).isNone
  /-- Items of one key are joined. -/
  each : ∀ k, Meets R (find? key? xs k) (find? key? ys k) (find? key? zs k)

variable {key?} {R : α → α → α → Prop} {xs ys zs : List α} {x y z : α} {k : κ}

theorem find?_eq_none : find? key? xs k = none ↔ k ∉ xs.filterMap key? := by
  simp [find?]

omit [DecidableEq κ] in
/-- If the keys are different, the key of an item does not come before it. -/
theorem notMem_of_nodup_keys {above below : List α} (hx : key? x = some k)
    (h : ((above ++ x :: below).filterMap key?).Nodup) : k ∉ above.filterMap key? := by
  rw [List.filterMap_append, List.filterMap_cons_some hx] at h
  exact fun hk => (List.nodup_append.1 h).2.2 k hk k List.mem_cons_self rfl

theorem Meets.of_left {o : Option α} : Meets R o none o := by
  cases o with
  | none => exact .neither
  | some x => exact .left x

theorem Meets.of_right {o : Option α} : Meets R none o o := by
  cases o with
  | none => exact .neither
  | some y => exact .right y

theorem Meets.refl (h : ∀ x, R x x x) (o : Option α) : Meets R o o o := by
  cases o with
  | none => exact .neither
  | some x => exact .both (h x)

/-- What comes of values comes of what is read off them. -/
theorem Meets.bind {β : Type} {S : β → β → β → Prop} {f : α → Option β} {o o' o'' : Option α}
    (h : Meets R o o' o'')
    (hboth : ∀ x y z, o = some x → o' = some y → R x y z → Meets S (f x) (f y) (f z)) :
    Meets S (o.bind f) (o'.bind f) (o''.bind f) := by
  cases h with
  | neither => exact .neither
  | left x => exact .of_left
  | right y => exact .of_right
  | both hR => exact hboth _ _ _ rfl rfl hR

theorem Joined.nil : Joined key? R xs [] xs where
  keys := by simp
  unnamed := by simp
  each _ := .of_left

/-- An item of a new key, or of none, is put at the end. -/
theorem Joined.append (h : ∀ k, key? y = some k → k ∉ xs.filterMap key?) :
    Joined key? R xs [y] (xs ++ [y]) where
  keys := by
    cases hy : key? y with
    | none => simp [hy]
    | some k =>
        have hk := h k hy
        rw [List.filterMap_append, List.filterMap_cons_some hy, List.filterMap_nil,
          List.filter_cons_of_pos (by simpa using hk), List.filter_nil]
  unnamed := by rw [List.filter_append]
  each j := by
    have hsplit : find? key? (xs ++ [y]) j = (find? key? xs j).or (find? key? [y] j) :=
      List.find?_append
    rw [hsplit]
    cases hj : find? key? [y] j with
    | none =>
        rw [Option.or_none]
        exact .of_left
    | some y' =>
        have hy' : y' = y := List.mem_singleton.1 (List.mem_of_find?_eq_some hj)
        have hkey : key? y' = some j := by simpa using List.find?_some hj
        rw [find?_eq_none.2 (h j (hy' ▸ hkey))]
        exact .right y'

/-- An item of a known key is joined with the one that has it. -/
theorem Joined.set {i : Nat} (hxs : (xs.filterMap key?).Nodup) (hi : xs[i]? = some x)
    (hx : key? x = some k) (hy : key? y = some k) (hz : key? z = some k) (hR : R x y z) :
    Joined key? R xs [y] (xs.set i z) := by
  obtain ⟨pre, post, rfl, hset⟩ := exists_append_set hi
  have hpre := notMem_of_nodup_keys hx hxs
  rw [hset]
  constructor
  · simp [hx, hy, hz]
  · simp [hx, hy, hz]
  · intro j
    have hfind : ∀ w, find? key? (pre ++ w :: post) j =
        (find? key? pre j).or (find? key? (w :: post) j) := fun w => List.find?_append
    rw [hfind, hfind]
    by_cases hj : j = k
    · subst hj
      have hhead : ∀ w rest, key? w = some j → find? key? (w :: rest) j = some w :=
        fun w rest hw => List.find?_cons_of_pos (by simpa using hw)
      rw [find?_eq_none.2 hpre, hhead x post hx, hhead y [] hy, hhead z post hz]
      exact .both hR
    · have htail : ∀ w rest, key? w = some k → find? key? (w :: rest) j = find? key? rest j :=
        fun w rest hw => List.find?_cons_of_neg (by simpa [hw] using fun e => hj e.symm)
      rw [htail x post hx, htail y [] hy, htail z post hz]
      exact .of_left

/-- Items of different keys are placed one after the other. -/
theorem Joined.cons {xs' : List α} (hfirst : Joined key? R xs [y] xs')
    (hrest : Joined key? R xs' ys zs) (hy : ∀ k, key? y = some k → k ∉ ys.filterMap key?) :
    Joined key? R xs (y :: ys) zs where
  keys := by
    have hnew : (ys.filterMap key?).filter (· ∉ xs'.filterMap key?) =
        (ys.filterMap key?).filter (· ∉ xs.filterMap key?) := by
      refine List.filter_congr fun k hk => ?_
      have hother : k ∉ ([y].filterMap key?).filter (· ∉ xs.filterMap key?) := by
        intro hmem
        have hky : key? y = some k := by simpa using (List.mem_filter.1 hmem).1
        exact hy k hky hk
      rw [hfirst.keys]
      simp only [List.mem_append, hother, or_false]
    have hcons : (y :: ys).filterMap key? = [y].filterMap key? ++ ys.filterMap key? := by
      rw [← List.filterMap_append, List.singleton_append]
    rw [hrest.keys, hnew, hfirst.keys, hcons, List.filter_append, List.append_assoc]
  unnamed := by
    have hcons : (y :: ys).filter (fun z => (key? z).isNone) =
        [y].filter (fun z => (key? z).isNone) ++ ys.filter fun z => (key? z).isNone := by
      rw [← List.filter_append, List.singleton_append]
    rw [hrest.unnamed, hfirst.unnamed, hcons, List.append_assoc]
  each k := by
    have hone := hfirst.each k
    have htwo := hrest.each k
    have hcons : find? key? (y :: ys) k = (find? key? [y] k).or (find? key? ys k) := by
      rw [← List.singleton_append]
      exact List.find?_append
    rw [hcons]
    cases hk : find? key? [y] k with
    | none =>
        -- the first item has another key
        rw [hk] at hone
        have hsame : find? key? xs' k = find? key? xs k := by
          generalize find? key? xs k = o, find? key? xs' k = o' at hone
          cases hone <;> rfl
        rwa [hsame] at htwo
    | some y' =>
        -- and so have the others
        have hy' : y' = y := List.mem_singleton.1 (List.mem_of_find?_eq_some hk)
        have hkey : key? y' = some k := by simpa using List.find?_some hk
        have hnone : find? key? ys k = none := find?_eq_none.2 (hy k (hy' ▸ hkey))
        rw [hnone] at htwo
        have hsame : find? key? zs k = find? key? xs' k := by
          generalize find? key? xs' k = o, find? key? zs k = o' at htwo
          cases htwo <;> rfl
        rw [hsame, ← hk, hnone, Option.or_none]
        exact hone

end Keyed

open Keyed (Joined Meets)

/-! ## Nodes -/

namespace Node

/-- What merging the second node into the first one gives, whichever number is next. -/
def Merges (a b m : Node ρ) : Prop := ∃ k, m = ((a.merge b).run k).1

/-- The key of a node is its name. -/
def key? (n : Node ρ) : Option Label := some n.name

theorem filterMap_key? (ns : List (Node ρ)) : ns.filterMap key? = ns.map name := by
  rw [← List.filterMap_eq_map']
  rfl

theorem Merges.name {a b m : Node ρ} (h : a.Merges b m) : m.name = a.name := by
  obtain ⟨k, rfl⟩ := h
  rw [merge]
  split <;> rfl

end Node

namespace Graph

theorem nodup_nodeKeys {g : Graph ρ} (hg : g.Indexed) : (g.nodes.filterMap Node.key?).Nodup := by
  rw [Node.filterMap_key?]
  exact hg.nodup_names

/-- A node is new if its name is not found. -/
theorem key_notMem_of_nodeAt? {g : Graph ρ} (hg : g.Indexed) {n : Node ρ}
    (h : g.nodeAt? n.name = none) :
    ∀ name, n.key? = some name → name ∉ g.nodes.filterMap Node.key? := by
  intro name hname hmem
  -- a name that is there would be found
  obtain rfl : n.name = name := Option.some.inj hname
  rw [Node.filterMap_key?] at hmem
  obtain ⟨i, hi⟩ := List.getElem?_of_mem hmem
  rw [List.getElem?_map, ← hg.nodes, hg.get?_of_nodeAt? h] at hi
  cases hi

theorem placeNode_joined {g : Graph ρ} (hg : g.Indexed) (n : Node ρ) (k : Nat) :
    ((g.placeNode n).run k).1.Indexed ∧
      Joined Node.key? Node.Merges g.nodes [n] ((g.placeNode n).run k).1.nodes := by
  rw [placeNode]
  cases hf : g.nodeAt? n.name with
  | none => exact ⟨hg.appendNode hf, Joined.append (key_notMem_of_nodeAt? hg hf)⟩
  | some found =>
      obtain ⟨i, known⟩ := found
      obtain ⟨-, hi⟩ := nodeAt?_eq_some hf
      have hname := hg.name_of_nodeAt? hf
      have hmerges : known.Merges n ((known.merge n).run k).1 := ⟨k, rfl⟩
      exact ⟨hg.setNode hi hmerges.name, Joined.set (nodup_nodeKeys hg) hi rfl
        (congrArg some hname.symm) (congrArg some hmerges.name) hmerges⟩

/-- **Nodes of different names are joined with those of a graph.** -/
theorem placeNodes_joined {ns : List (Node ρ)} (hns : (ns.map Node.name).Nodup) {g : Graph ρ}
    (hg : g.Indexed) (k : Nat) :
    ((g.placeNodes ns).run k).1.Indexed ∧
      Joined Node.key? Node.Merges g.nodes ns ((g.placeNodes ns).run k).1.nodes := by
  induction ns generalizing g k with
  | nil => exact ⟨hg, Joined.nil⟩
  | cons n rest ih =>
      obtain ⟨hn, hrest⟩ := List.nodup_cons.1 hns
      obtain ⟨hindexed, hfirst⟩ := placeNode_joined hg n k
      have hnext := ih hrest hindexed ((g.placeNode n).run k).2
      refine ⟨hnext.1, hfirst.cons hnext.2 fun name hname => ?_⟩
      obtain rfl : n.name = name := Option.some.inj hname
      rwa [Node.filterMap_key?]

/-- Placing nodes changes the nodes only. -/
theorem placeNodes_frame (ns : List (Node ρ)) (g : Graph ρ) (k : Nat) :
    ∃ nodes index, ((g.placeNodes ns).run k).1 = { g with nodes := nodes, nodeIndex := index } := by
  induction ns generalizing g k with
  | nil =>
      obtain ⟨⟩ := g
      exact ⟨_, _, rfl⟩
  | cons n rest ih =>
      obtain ⟨nodes, index, hrest⟩ := ih ((g.placeNode n).run k).1 ((g.placeNode n).run k).2
      refine ⟨nodes, index, hrest.trans ?_⟩
      rw [placeNode]
      cases g.nodeAt? n.name <;> rfl

/-! ## Subgraphs -/

/-- What merging the second graph into the first one gives, whichever number is next. -/
def Merges (a b m : Graph ρ) : Prop := ∃ k, m = ((a.merge b).run k).1

/-- The key of a subgraph is its name, if it is not anonymous. -/
def key? (s : Graph ρ) : Option Label := if s.name.anonymous then none else some s.name

theorem key?_eq_some {s : Graph ρ} {name : Label} :
    s.key? = some name ↔ name.anonymous = false ∧ s.name = name := by
  unfold key?
  split
  · rename_i h
    refine ⟨nofun, ?_⟩
    rintro ⟨hname, rfl⟩
    rw [h] at hname
    cases hname
  · rename_i h
    rw [Option.some.injEq]
    constructor
    · rintro rfl
      exact ⟨Bool.eq_false_iff.2 h, rfl⟩
    · exact fun h => h.2

theorem key?_of_name_eq {s t : Graph ρ} (h : s.name = t.name) : s.key? = t.key? := by
  rw [key?, key?, h]

theorem filterMap_key? (ss : List (Graph ρ)) :
    ss.filterMap key? = (ss.map name).filter fun name => !name.anonymous := by
  induction ss with
  | nil => rfl
  | cons s rest ih =>
      rw [List.filterMap_cons, List.map_cons, List.filter_cons, ih, key?]
      cases s.name.anonymous <;> rfl

/-- Placing subgraphs changes the subgraphs only. -/
theorem placeSubgraphs_frame (ss : List (Graph ρ)) (g : Graph ρ) (k : Nat) :
    ∃ subgraphs index, ((g.placeSubgraphs ss).run k).1 =
      { g with subgraphs := subgraphs, subgraphIndex := index } := by
  induction ss generalizing g k with
  | nil =>
      rw [placeSubgraphs]
      obtain ⟨⟩ := g
      exact ⟨_, _, rfl⟩
  | cons s rest ih =>
      rw [placeSubgraphs]
      cases g.subgraphAt? s.name with
      | none => exact ih (g.appendSubgraph s) k
      | some found =>
          obtain ⟨i, known⟩ := found
          exact ih { g with subgraphs := g.subgraphs.set i ((known.merge s).run k).1 }
            ((known.merge s).run k).2

theorem merge_of_ident_eq {a b : Graph ρ} (h : a.ident = b.ident) : a.merge b = pure a := by
  obtain ⟨⟩ := b
  rw [merge, if_pos h]

/-- A merge of different graphs places the members of the second one and gives a new number. -/
theorem merge_of_ident_ne {a b : Graph ρ} (h : a.ident ≠ b.ident) (k : Nat) :
    ∃ k' ident, ((a.merge b).run k).1 =
      { ((((a.overlaid b).placeNodes b.nodes).run k).1.placeSubgraphs b.subgraphs).run k' |>.1 with
          ident := ident } := by
  obtain ⟨⟩ := b
  rw [merge, if_neg h]
  exact ⟨_, _, rfl⟩

theorem Merges.name {a b m : Graph ρ} (h : a.Merges b m) : m.name = a.name := by
  obtain ⟨k, rfl⟩ := h
  by_cases hi : a.ident = b.ident
  · rw [merge_of_ident_eq hi]
    rfl
  · -- neither nodes nor subgraphs change the name
    obtain ⟨k', ident, hmerge⟩ := merge_of_ident_ne hi k
    obtain ⟨nodes, _, hnodes⟩ := placeNodes_frame b.nodes (a.overlaid b) k
    rw [hmerge, hnodes]
    obtain ⟨subgraphs, _, hsubgraphs⟩ := placeSubgraphs_frame b.subgraphs _ k'
    rw [hsubgraphs]
    rfl

theorem nodup_keys {g : Graph ρ} (hg : g.Indexed) : (g.subgraphs.filterMap key?).Nodup := by
  rw [filterMap_key?]
  exact hg.nodup_subgraphNames

/-- A subgraph is new if its name is not found. -/
theorem key_notMem_of_subgraphAt? {g s : Graph ρ} (hg : g.Indexed)
    (h : g.subgraphAt? s.name = none) :
    ∀ name, s.key? = some name → name ∉ g.subgraphs.filterMap key? := by
  intro name hname hmem
  -- a name that is there would be found
  obtain ⟨hnamed, rfl⟩ := key?_eq_some.1 hname
  obtain ⟨t, ht, htkey⟩ := List.mem_filterMap.1 hmem
  obtain ⟨i, hi⟩ := List.getElem?_of_mem ht
  have hplace : (g.subgraphs[i]?).map Graph.name = some s.name := by
    rw [hi, Option.map_some, (key?_eq_some.1 htkey).2]
  have hpos := (hg.subgraphs s.name i).2 ⟨hnamed, hplace⟩
  rw [hg.get?_of_subgraphAt? h] at hpos
  cases hpos

/-- **Subgraphs of different names, and anonymous ones, are joined with those of a graph.** -/
theorem placeSubgraphs_joined {ss : List (Graph ρ)} (hss : (ss.filterMap key?).Nodup)
    {g : Graph ρ} (hg : g.Indexed) (k : Nat) :
    Joined key? Merges g.subgraphs ss ((g.placeSubgraphs ss).run k).1.subgraphs := by
  induction ss generalizing g k with
  | nil =>
      rw [placeSubgraphs]
      exact Joined.nil
  | cons s rest ih =>
      have hother : ∀ name, s.key? = some name → name ∉ rest.filterMap key? := by
        intro name hname
        rw [List.filterMap_cons_some hname] at hss
        exact (List.nodup_cons.1 hss).1
      have hrest : (rest.filterMap key?).Nodup :=
        hss.sublist ((List.sublist_cons_self s rest).filterMap _)
      rw [placeSubgraphs]
      cases hf : g.subgraphAt? s.name with
      | none =>
          exact Joined.cons (Joined.append (key_notMem_of_subgraphAt? hg hf))
            (ih hrest (hg.appendSubgraph hf) k) hother
      | some found =>
          obtain ⟨i, known⟩ := found
          obtain ⟨hnamed, -, hi⟩ := subgraphAt?_eq_some hf
          have hname := hg.name_of_subgraphAt? hf
          have hmerges : known.Merges s ((known.merge s).run k).1 := ⟨k, rfl⟩
          have hkey : s.key? = some s.name := key?_eq_some.2 ⟨hnamed, rfl⟩
          have hset := Joined.set (nodup_keys hg) hi ((key?_of_name_eq hname).trans hkey) hkey
            ((key?_of_name_eq (hmerges.name.trans hname)).trans hkey) hmerges
          exact hset.cons (ih hrest (hg.setSubgraph hi hmerges.name) ((known.merge s).run k).2)
            hother

/-- **Merging graphs lays tables over each other, adds links and joins members**, and changes
nothing else. -/
theorem merge_joined {a b : Graph ρ} (ha : a.Indexed) (hb : b.Indexed) (h : a.ident ≠ b.ident)
    (k : Nat) : ∃ ident nodes nodeIndex subgraphs subgraphIndex, ((a.merge b).run k).1 =
        { a.overlaid b with ident := ident, nodes := nodes, nodeIndex := nodeIndex,
                            subgraphs := subgraphs, subgraphIndex := subgraphIndex } ∧
      Joined Node.key? Node.Merges a.nodes b.nodes nodes ∧
      Joined key? Merges a.subgraphs b.subgraphs subgraphs := by
  obtain ⟨k', ident, hmerge⟩ := merge_of_ident_ne h k
  obtain ⟨hindexed, hjoined⟩ := placeNodes_joined hb.nodup_names (ha.overlaid hb) k
  obtain ⟨nodes, nodeIndex, hnodes⟩ := placeNodes_frame b.nodes (a.overlaid b) k
  rw [hnodes] at hmerge hindexed hjoined
  have hjoined' := placeSubgraphs_joined (nodup_keys hb) hindexed k'
  obtain ⟨subgraphs, subgraphIndex, hsubgraphs⟩ := placeSubgraphs_frame b.subgraphs _ k'
  rw [hsubgraphs] at hmerge hjoined'
  exact ⟨ident, nodes, nodeIndex, subgraphs, subgraphIndex, hmerge, hjoined, hjoined'⟩

end Graph

end DotDoc
