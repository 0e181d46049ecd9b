import DotDoc.Proofs.Graph.Content
import DotDoc.Proofs.Graph.Scanning
import Mathlib.Data.List.Forall2

set_option autoImplicit false

/-!
# The same but for new numbers

Merging makes a new node or graph, and which number it has depends on what was made before. Nodes
and graphs are the same but for numbers from `n` on if they are the very same, or if both have been
made with such numbers and hold the same besides (`Node.Renumbered`, `Graph.Renumbered`). If what is
merged into them was there before, so that its numbers are below `n`, the results are the same again
(`Node.merge_agree`, `Graph.merge_agree`): it cannot be taken for something new.

So it makes no difference in how many batches nodes or subgraphs are added to a graph
(`Graph.addNodes_agree`, `Graph.addSubgraphs_agree`).
-/

namespace DotDoc

open Supply (Agree)

variable {ρ : Type} {n : Nat}

/-! ## Two lists of one length -/

section Lists

variable {α : Type} {R : α → α → Prop} {xs ys : List α}

theorem rel_getElem? (h : List.Forall₂ R xs ys) (i : Nat) : Option.Rel R xs[i]? ys[i]? := by
  induction h generalizing i with
  | nil => exact .none
  | cons hxy _ ih =>
      cases i with
      | zero => exact .some hxy
      | succ i => exact ih i

/-- What is found at a position that may be given. -/
theorem rel_position (h : List.Forall₂ R xs ys) (o : Option Nat) :
    Option.Rel (fun x y => x.1 = y.1 ∧ R x.2 y.2) (do let i ← o; let x ← xs[i]?; return (i, x))
      (do let i ← o; let y ← ys[i]?; return (i, y)) := by
  cases o with
  | none => exact .none
  | some i =>
      have hi := rel_getElem? h i
      show Option.Rel _ (xs[i]?.bind fun x => some (i, x)) (ys[i]?.bind fun y => some (i, y))
      generalize xs[i]? = a, ys[i]? = b at hi
      cases hi with
      | none => exact .none
      | some hxy => exact .some ⟨rfl, hxy⟩

theorem forall₂_set (h : List.Forall₂ R xs ys) {x y : α} (hxy : R x y) (i : Nat) :
    List.Forall₂ R (xs.set i x) (ys.set i y) := by
  induction h generalizing i with
  | nil => exact .nil
  | cons hab hrest ih =>
      cases i with
      | zero => exact .cons hxy hrest
      | succ i => exact .cons hab (ih i)

end Lists

/-! ## Nodes and graphs with new numbers -/

/-- The same node, or two nodes that were made with numbers from `n` on and differ only in these. -/
inductive Node.Renumbered (n : Nat) : Node ρ → Node ρ → Prop
  | same (a : Node ρ) : Renumbered n a a
  | made {a b : Node ρ} : n ≤ a.ident → n ≤ b.ident → a.content = b.content → Renumbered n a b

/-- The same graph, or two graphs that were made with numbers from `n` on and differ only in these
and in members that are themselves the same but for such numbers. -/
inductive Graph.Renumbered (n : Nat) : Graph ρ → Graph ρ → Prop
  | same (g : Graph ρ) : Renumbered n g g
  | made {g : Graph ρ} {i : Nat} {nodes : List (Node ρ)} {subgraphs : List (Graph ρ)} :
    n ≤ g.ident → n ≤ i → List.Forall₂ (Node.Renumbered n) g.nodes nodes →
    List.Forall₂ (Renumbered n) g.subgraphs subgraphs →
    Renumbered n g { g with ident := i, nodes := nodes, subgraphs := subgraphs }

/-- Two graphs that differ only in their numbers, be these new or not, and in members that are the
same but for new ones. -/
inductive Graph.Resembles (n : Nat) : Graph ρ → Graph ρ → Prop
  | intro {g : Graph ρ} {i : Nat} {nodes : List (Node ρ)} {subgraphs : List (Graph ρ)} :
    List.Forall₂ (Node.Renumbered n) g.nodes nodes →
    List.Forall₂ (Graph.Renumbered n) g.subgraphs subgraphs →
    Resembles n g { g with ident := i, nodes := nodes, subgraphs := subgraphs }

/-- An old number belongs to both or to none. -/
theorem Node.Renumbered.ident_eq_iff {a b : Node ρ} (h : Renumbered n a b) {i : Nat} (hi : i < n) :
    a.ident = i ↔ b.ident = i := by
  cases h with
  | same => exact Iff.rfl
  | made ha hb _ => omega

/-- Merging a node that was there before gives nodes that are the same but for new numbers. -/
theorem Node.merge_agree {a a' b : Node ρ} (h : Renumbered n a a') (hb : b.ident < n) :
    Agree n (Renumbered n) (a.merge b) (a'.merge b) := by
  rw [merge, merge]
  by_cases hab : a.ident = b.ident
  · rw [if_pos hab, if_pos ((h.ident_eq_iff hb).1 hab)]
    exact .pure h
  · rw [if_neg hab, if_neg fun hab' => hab ((h.ident_eq_iff hb).2 hab')]
    refine fun k m hk hm => ⟨.made hk hm ?_, Nat.le_succ_of_le hk, Nat.le_succ_of_le hm⟩
    cases h with
    | same => rfl
    | made _ _ hcontent => exact congrArg (fun c => c.absorb b) hcontent

/-- Merging nodes that were there before. -/
theorem Node.merging {items : List (Node ρ)} (hbefore : ∀ b ∈ items, b.ident < n)
    (hunique : ∀ a ∈ items, ∀ b ∈ items, a.ident = b.ident → a = b) :
    Keyed.Merging n ident key? merge (Renumbered n) links items where
  before := hbefore
  unique := hunique
  key := key?_merge
  refl := .same
  agree b hb _ _ haa := merge_agree haa (hbefore b hb)
  itself a b _ hab := if_pos hab
  other a b _ hab m hm := by
    rw [merge, if_neg hab]
    exact ⟨hm, rfl⟩

namespace Graph

theorem Renumbered.ident_eq_iff {a b : Graph ρ} (h : Renumbered n a b) {i : Nat} (hi : i < n) :
    a.ident = i ↔ b.ident = i := by
  cases h with
  | same => exact Iff.rfl
  | @made _ j _ _ ha hj _ _ =>
      show a.ident = i ↔ j = i
      omega

theorem Resembles.refl (g : Graph ρ) : Resembles n g g := by
  obtain ⟨⟩ := g
  exact .intro (List.forall₂_same.2 fun x _ => .same x) (List.forall₂_same.2 fun s _ => .same s)

theorem Renumbered.resembles {a b : Graph ρ} (h : Renumbered n a b) : Resembles n a b := by
  cases h with
  | same => exact .refl a
  | made _ _ hnodes hsubgraphs => exact .intro hnodes hsubgraphs

theorem Resembles.nodes {a b : Graph ρ} (h : Resembles n a b) :
    List.Forall₂ (Node.Renumbered n) a.nodes b.nodes := by
  cases h
  assumption

theorem Resembles.subgraphs {a b : Graph ρ} (h : Resembles n a b) :
    List.Forall₂ (Graph.Renumbered n) a.subgraphs b.subgraphs := by
  cases h
  assumption

theorem Resembles.renew {a b : Graph ρ} (h : Resembles n a b) :
    Agree n (Renumbered n) a.renew b.renew := by
  refine fun k m hk hm => ⟨?_, Nat.le_succ_of_le hk, Nat.le_succ_of_le hm⟩
  cases h with
  | intro hnodes hsubgraphs => exact .made hk hm hnodes hsubgraphs

theorem Resembles.overlaid {a a' : Graph ρ} (h : Resembles n a a') (b : Graph ρ) :
    Resembles n (a.overlaid b) (a'.overlaid b) := by
  cases h with
  | intro hnodes hsubgraphs => exact .intro hnodes hsubgraphs

/-! ## Placing members -/

theorem Resembles.nodeAt? {g h : Graph ρ} (hgh : Resembles n g h) (name : Label) :
    Option.Rel (fun x y => x.1 = y.1 ∧ Node.Renumbered n x.2 y.2) (g.nodeAt? name)
      (h.nodeAt? name) := by
  cases hgh with
  | intro hnodes _ => exact rel_position hnodes (g.nodeIndex.get? name)

theorem Resembles.appendNode {g h : Graph ρ} (hgh : Resembles n g h) (b : Node ρ) :
    Resembles n (g.appendNode b) (h.appendNode b) := by
  cases hgh with
  | intro hnodes hsubgraphs =>
      rw [Graph.appendNode, Graph.appendNode, hnodes.length_eq]
      exact .intro (List.rel_append hnodes (.cons (.same b) .nil)) hsubgraphs

theorem Resembles.setNode {g h : Graph ρ} (hgh : Resembles n g h) (i : Nat) {x y : Node ρ}
    (hxy : Node.Renumbered n x y) :
    Resembles n { g with nodes := g.nodes.set i x } { h with nodes := h.nodes.set i y } := by
  cases hgh with
  | intro hnodes hsubgraphs => exact .intro (forall₂_set hnodes hxy i) hsubgraphs

theorem placeNode_agree {g h : Graph ρ} {b : Node ρ} (hgh : Resembles n g h) (hb : b.ident < n) :
    Agree n (Resembles n) (g.placeNode b) (h.placeNode b) := by
  have hfound := hgh.nodeAt? b.name
  rw [placeNode, placeNode]
  generalize g.nodeAt? b.name = o, h.nodeAt? b.name = o' at hfound
  cases hfound with
  | none => exact .pure (hgh.appendNode b)
  | @some x y hxy =>
      obtain ⟨i, known⟩ := x
      obtain ⟨j, known'⟩ := y
      obtain ⟨rfl, hknown⟩ := hxy
      exact (Node.merge_agree hknown hb).bind fun _ _ hmerged => .pure (hgh.setNode i hmerged)

theorem placeNodes_agree {ns : List (Node ρ)} (hns : ∀ b ∈ ns, b.ident < n) {g h : Graph ρ}
    (hgh : Resembles n g h) : Agree n (Resembles n) (g.placeNodes ns) (h.placeNodes ns) := by
  induction ns generalizing g h with
  | nil => exact .pure hgh
  | cons b rest ih =>
      rw [placeNodes, placeNodes, List.foldlM_cons, List.foldlM_cons]
      refine (placeNode_agree hgh (hns b List.mem_cons_self)).bind fun _ _ hplaced => ?_
      exact ih (fun c hc => hns c (List.mem_cons_of_mem b hc)) hplaced

theorem Resembles.subgraphAt? {g h : Graph ρ} (hgh : Resembles n g h) (name : Label) :
    Option.Rel (fun x y => x.1 = y.1 ∧ Renumbered n x.2 y.2) (g.subgraphAt? name)
      (h.subgraphAt? name) := by
  cases hgh with
  | intro _ hsubgraphs =>
      rw [Graph.subgraphAt?, Graph.subgraphAt?]
      split
      · exact .none
      · exact rel_position hsubgraphs (g.subgraphIndex.get? name)

theorem Resembles.appendSubgraph {g h : Graph ρ} (hgh : Resembles n g h) (s : Graph ρ) :
    Resembles n (g.appendSubgraph s) (h.appendSubgraph s) := by
  cases hgh with
  | intro hnodes hsubgraphs =>
      rw [Graph.appendSubgraph, Graph.appendSubgraph, hsubgraphs.length_eq]
      exact .intro hnodes (List.rel_append hsubgraphs (.cons (.same s) .nil))

theorem Resembles.setSubgraph {g h : Graph ρ} (hgh : Resembles n g h) (i : Nat) {s t : Graph ρ}
    (hst : Renumbered n s t) : Resembles n { g with subgraphs := g.subgraphs.set i s }
      { h with subgraphs := h.subgraphs.set i t } := by
  cases hgh with
  | intro hnodes hsubgraphs => exact .intro hnodes (forall₂_set hsubgraphs hst i)

/-- The graph and its members have numbers below `n`, and so have the members of its subgraphs at
any depth. -/
inductive Before (n : Nat) : Graph ρ → Prop
  | intro {g : Graph ρ} : g.ident < n → (∀ b ∈ g.nodes, b.ident < n) →
    (∀ s ∈ g.subgraphs, Before n s) → Before n g

/-- What holds of a graph and then of its subgraphs, and bounds the numbers, does so at any
depth. -/
theorem before_of {p : Graph ρ → Prop} (hp : ∀ g, p g →
    g.ident < n ∧ (∀ b ∈ g.nodes, b.ident < n) ∧ ∀ s ∈ g.subgraphs, p s) (g : Graph ρ) (hg : p g) :
    g.Before n := by
  obtain ⟨hi, hnodes, hsubgraphs⟩ := hp g hg
  refine .intro hi hnodes fun s hs => ?_
  have hlt := sizeOf_subgraph hs
  exact before_of hp s (hsubgraphs s hs)
termination_by sizeOf g

mutual

/-- **Merging a graph that was there before** gives graphs that are the same but for new numbers. -/
theorem merge_agree {a a' : Graph ρ} (haa : Renumbered n a a') : ∀ b : Graph ρ, b.Before n →
    Agree n (Renumbered n) (a.merge b) (a'.merge b)
  | .mk i name directed strict attrs graphAttrs nodeAttrs linkAttrs nodes nodeIndex subgraphs
      subgraphIndex links => by
    rintro ⟨hi, hnodes, hsubgraphs⟩
    rw [merge, merge]
    show Agree n _ (if a.ident = i then _ else _) (if a'.ident = i then _ else _)
    by_cases hab : a.ident = i
    · rw [if_pos hab, if_pos ((haa.ident_eq_iff hi).1 hab)]
      exact .pure haa
    · rw [if_neg hab, if_neg fun hab' => hab ((haa.ident_eq_iff hi).2 hab')]
      refine (placeNodes_agree hnodes (haa.resembles.overlaid _)).bind fun _ _ hplaced => ?_
      exact (placeSubgraphs_agree hplaced subgraphs hsubgraphs).bind fun _ _ h => h.renew

theorem placeSubgraphs_agree {g h : Graph ρ} (hgh : Resembles n g h) : ∀ ss : List (Graph ρ),
    (∀ s ∈ ss, s.Before n) → Agree n (Resembles n) (g.placeSubgraphs ss) (h.placeSubgraphs ss)
  | [] => by
    intro _
    rw [placeSubgraphs, placeSubgraphs]
    exact .pure hgh
  | s :: rest => by
    intro hss
    have hs := hss s List.mem_cons_self
    have hrest : ∀ t ∈ rest, t.Before n := fun t ht => hss t (List.mem_cons_of_mem s ht)
    have hfound := hgh.subgraphAt? s.name
    rw [placeSubgraphs, placeSubgraphs]
    generalize g.subgraphAt? s.name = o, h.subgraphAt? s.name = o' at hfound
    cases hfound with
    | none => exact placeSubgraphs_agree (hgh.appendSubgraph s) rest hrest
    | @some x y hxy =>
        obtain ⟨i, known⟩ := x
        obtain ⟨j, known'⟩ := y
        obtain ⟨rfl, hknown⟩ := hxy
        refine (merge_agree hknown s hs).bind fun _ _ hmerged => ?_
        exact placeSubgraphs_agree (hgh.setSubgraph i hmerged) rest hrest

end

/-- Merging graphs that were there before. -/
theorem merging {items : List (Graph ρ)} (hbefore : ∀ b ∈ items, b.Before n)
    (hunique : ∀ a ∈ items, ∀ b ∈ items, a.ident = b.ident → a = b) :
    Keyed.Merging n ident key? merge (Renumbered n) links items where
  before b hb := by
    obtain ⟨hi, -, -⟩ := hbefore b hb
    exact hi
  unique := hunique
  key := key?_merge
  refl := .same
  agree b hb _ _ haa := merge_agree haa b (hbefore b hb)
  itself _ _ _ hab := merge_of_ident_eq hab
  other a b hb hab m hm := by
    refine ⟨?_, links_merge hab m⟩
    obtain ⟨-, hnodes, hsubgraphs⟩ := hbefore b hb
    have hplaced := (placeNodes_agree hnodes (.refl (a.overlaid b))).bind fun _ _ hplaced =>
      placeSubgraphs_agree hplaced b.subgraphs hsubgraphs
    -- the number is the one that is left when the members have been placed
    rw [merge_eq_of_ident_ne hab]
    exact (hplaced m m hm hm).2.1

/-! ## Batches -/

theorem placeNodes_append (g : Graph ρ) (xs ys : List (Node ρ)) :
    g.placeNodes (xs ++ ys) = g.placeNodes xs >>= fun h => h.placeNodes ys :=
  List.foldlM_append

theorem placeSubgraphs_append (g : Graph ρ) (ss ts : List (Graph ρ)) :
    g.placeSubgraphs (ss ++ ts) = g.placeSubgraphs ss >>= fun h => h.placeSubgraphs ts := by
  induction ss generalizing g with
  | nil =>
      rw [placeSubgraphs]
      rfl
  | cons s rest ih =>
      rw [List.cons_append, placeSubgraphs, placeSubgraphs]
      cases g.subgraphAt? s.name with
      | none => exact ih (g.appendSubgraph s)
      | some found =>
          obtain ⟨i, known⟩ := found
          funext k
          exact congrFun (ih _) ((known.merge s).run k).2

/-- A graph that is given a new number on the one side only. -/
theorem Resembles.renew_left {g h : Graph ρ} (hgh : Resembles n g h) :
    Agree n (Resembles n) g.renew (pure h) := by
  refine fun k m hk hm => ⟨?_, Nat.le_succ_of_le hk, hm⟩
  cases hgh with
  | intro hnodes hsubgraphs => exact .intro hnodes hsubgraphs

theorem Resembles.renew_right {g h : Graph ρ} (hgh : Resembles n g h) :
    Agree n (Resembles n) (pure g) h.renew := by
  refine fun k m hk hm => ⟨?_, hk, Nat.le_succ_of_le hm⟩
  cases hgh with
  | intro hnodes hsubgraphs => exact .intro hnodes hsubgraphs

/-- What is placed in batches, with a new number after each of them, is placed as all at once. -/
theorem batches_agree {α : Type} {place : Graph ρ → List α → Supply (Graph ρ)}
    (hnil : ∀ g, place g [] = pure g)
    (happend : ∀ g xs ys, place g (xs ++ ys) = place g xs >>= fun h => place h ys)
    {batches : List (List α)}
    (hplace : ∀ xs ∈ batches, ∀ g h, Resembles n g h →
      Agree n (Resembles n) (place g xs) (place h xs)) {g h : Graph ρ} (hgh : Resembles n g h) :
    Agree n (Resembles n) (batches.foldlM (fun g xs => place g xs >>= renew) g)
      (place h batches.flatten) := by
  induction batches generalizing g h with
  | nil =>
      rw [List.flatten_nil, hnil]
      exact .pure hgh
  | cons xs rest ih =>
      have hbatch : Agree n (Resembles n) (place g xs >>= renew) (place h xs) := by
        have hplaced := hplace xs List.mem_cons_self g h hgh
        rw [← bind_pure (place h xs)]
        exact hplaced.bind fun _ _ hplaced => hplaced.renew_left
      rw [List.foldlM_cons, List.flatten_cons, happend]
      exact hbatch.bind fun _ _ hbatch =>
        ih (fun ys hys => hplace ys (List.mem_cons_of_mem xs hys)) hbatch

/-- The same with a new number after all. -/
theorem batches_agree_renew {α : Type} {place : Graph ρ → List α → Supply (Graph ρ)}
    {batches : List (List α)} {g : Graph ρ}
    (h : Agree n (Resembles n) (batches.foldlM (fun g xs => place g xs >>= renew) g)
      (place g batches.flatten)) :
    Agree n (Resembles n) (batches.foldlM (fun g xs => place g xs >>= renew) g)
      (place g batches.flatten >>= renew) := by
  rw [← bind_pure (batches.foldlM _ g)]
  exact h.bind fun _ _ hgh => hgh.renew_right

/-- **Nodes can be added in batches.** -/
theorem addNodes_agree {batches : List (List (Node ρ))}
    (hbefore : ∀ xs ∈ batches, ∀ x ∈ xs, x.ident < n) (g : Graph ρ) :
    Agree n (Resembles n) (batches.foldlM addNodes g) (g.addNodes batches.flatten) :=
  batches_agree_renew (batches_agree (fun _ => rfl) placeNodes_append
    (fun xs hxs _ _ hgh => placeNodes_agree (hbefore xs hxs) hgh) (.refl g))

/-- **Subgraphs can be added in batches.** -/
theorem addSubgraphs_agree {batches : List (List (Graph ρ))}
    (hbefore : ∀ ss ∈ batches, ∀ s ∈ ss, s.Before n) (g : Graph ρ) :
    Agree n (Resembles n) (batches.foldlM addSubgraphs g) (g.addSubgraphs batches.flatten) :=
  batches_agree_renew (batches_agree (fun _ => by rw [placeSubgraphs]) placeSubgraphs_append
    (fun ss hss _ _ hgh => placeSubgraphs_agree hgh ss (hbefore ss hss)) (.refl g))

end Graph

end DotDoc
