import DotDoc.Proofs.Graph.Placing
import DotDoc.Proofs.Session.Defaults

set_option autoImplicit false

/-!
# The laws of merging

Merging two nodes or two graphs of a session gives one whose content is the union of the contents of
the two (`Node.merge_adds`, `Graph.merge_adds`). That a value merged with itself is that very value
is no exception, since no number has two elements. So merging is associative up to content, and what
has been merged already makes no difference when it is merged again (`Flow.Reaches.mergeLaws`).
-/

namespace DotDoc

open Supply (Gives)
open Keyed (lay)

variable {σ τ : Registry} {α : Type} {n m : Nat}

namespace Supply

/-- While the computation runs, the registry is exact. -/
theorem Gives.exact {P : Registry → α → Prop} {s : Supply α}
    (h : ∀ τ n, σ ≤ τ → τ.Exact n → Gives Registry.Exact τ P s) : Gives Registry.Exact σ P s :=
  fun τ n hτ hexact => h τ n hτ hexact τ n (le_refl τ) hexact

/-- What holds of the result whichever numbers are left. -/
theorem Gives.and {I : Registry → Nat → Prop} {P : Registry → α → Prop} {Q : α → Prop}
    {s : Supply α} (hs : Gives I σ P s) (hQ : ∀ n, Q (s.run n).1) :
    Gives I σ (fun τ a => P τ a ∧ Q a) s := by
  intro τ n hτ hI
  obtain ⟨υ, hυ, hI, hP⟩ := hs τ n hτ hI
  exact ⟨υ, hυ, hI, hP, hQ n⟩

end Supply

namespace Registry

/-- More numbers may be handed out. -/
theorem Exact.mono (h : σ.Exact n) (hnm : n ≤ m) : σ.Exact m :=
  ⟨fun hv => Nat.lt_of_lt_of_le (h.below hv) hnm, h.unique, h.sound⟩

/-- Known elements of one number are one element. -/
theorem Exact.eq_of_knows (h : σ.Exact n) {v w : Value} (hv : σ.Knows v) (hw : σ.Knows w) {i : Nat}
    (hvi : v.number? = some i) (hwi : w.number? = some i) : v = w :=
  h.unique (hv v .refl i hvi) (hw w .refl i hwi)

/-- The content of a known graph is tidy. -/
theorem Knows.tidy_content {g : Graph Value} (hσ : σ.Sound) (hg : σ.Knows (.graph g)) :
    g.content.Tidy :=
  Graph.tidy_content_of (p := fun k => σ.Knows (.graph k))
    (fun _ hk => ⟨hk.indexed hσ, fun _ hs => hk.part (.subgraph hs)⟩) g hg

end Registry

/-! ## Nodes -/

theorem Node.content_merge {a b : Node Value} (h : a.ident = b.ident → a = b) (n : Nat) :
    ((a.merge b).run n).1.content = a.content.absorb b.content := by
  unfold Node.merge
  by_cases hi : a.ident = b.ident
  · rw [if_pos hi, ← h hi]
    exact (Node.absorb_self a.content).symm
  · rw [if_neg hi]
    rfl

/-- Merging nodes adds up their contents. -/
theorem Node.merge_adds {a b : Node Value} (ha : σ.Knows (.node a)) (hb : σ.Knows (.node b)) :
    Gives Registry.Exact σ (fun τ m => τ.Knows (.node m) ∧
      m.content = a.content.absorb b.content) (a.merge b) := by
  refine .exact fun τ n hτ hexact => ?_
  have hsame : a.ident = b.ident → a = b := fun hi =>
    Value.node.inj (hexact.eq_of_knows (ha.mono hτ) (hb.mono hτ) rfl (congrArg some hi.symm))
  have hgives := Node.merge_gives Registry.keeps_exact (ha.mono hτ) (hb.mono hτ)
  exact (hgives.and (Node.content_merge hsame)).mono fun _ _ _ h => ⟨h.1.1, h.2⟩

/-! ## Graphs -/

namespace Graph

theorem content_placeNode {g : Graph Value} (hg : g.Indexed) {n : Node Value}
    (h : ∀ m ∈ g.nodes, m.ident = n.ident → m = n) (k : Nat) :
    ((g.placeNode n).run k).1.content = g.content.layNodes [n.content] := by
  unfold placeNode
  cases hf : g.nodeAt? n.name with
  | none => exact content_appendNode hg hf
  | some found =>
      obtain ⟨i, known⟩ := found
      obtain ⟨-, hi⟩ := nodeAt?_eq_some hf
      exact content_setNode hg hi (hg.name_of_nodeAt? hf)
        (Node.content_merge (h known (List.mem_of_getElem? hi)) k)

theorem placeNode_adds {g : Graph Value} {n : Node Value} (hg : σ.Draft g)
    (hn : σ.Knows (.node n)) :
    Gives Registry.Exact σ (fun τ h => (τ.Draft h ∧ h.name = g.name) ∧
      h.content = g.content.layNodes [n.content]) (g.placeNode n) := by
  refine .exact fun τ k hτ hexact => ?_
  have hsame : ∀ m ∈ g.nodes, m.ident = n.ident → m = n := fun m hm hi =>
    Value.node.inj (hexact.eq_of_knows ((hg.node hm).mono hτ) (hn.mono hτ) rfl
      (congrArg some hi.symm))
  have hgives := placeNode_gives Registry.keeps_exact (hg.mono hτ) (hn.mono hτ)
  exact hgives.and (content_placeNode (hg.indexed (hexact.sound.mono hτ)) hsame)

theorem placeNodes_adds {ns : List (Node Value)} {σ : Registry} {g : Graph Value}
    (hg : σ.Draft g) (hns : ∀ n ∈ ns, σ.Knows (.node n)) :
    Gives Registry.Exact σ (fun τ h => (τ.Draft h ∧ h.name = g.name) ∧
      h.content = g.content.layNodes (ns.map Node.content)) (g.placeNodes ns) := by
  induction ns generalizing σ g with
  | nil =>
      refine .pure fun τ hτ => ⟨⟨hg.mono hτ, rfl⟩, ?_⟩
      cases g
      rfl
  | cons n rest ih =>
      show Gives Registry.Exact σ _ (g.placeNode n >>= fun h => h.placeNodes rest)
      refine (placeNode_adds hg (hns n List.mem_cons_self)).bind fun τ h hτ hh => ?_
      have hrest : ∀ m ∈ rest, τ.Knows (.node m) := fun m hm =>
        (hns m (List.mem_cons_of_mem n hm)).mono hτ
      refine (ih hh.1.1 hrest).mono fun υ k _ hk => ⟨⟨hk.1.1, hk.1.2.trans hh.1.2⟩, ?_⟩
      rw [hk.2, hh.2, ← layNodes_append]
      rfl

theorem content_renew (g : Graph Value) (n : Nat) : (g.renew.run n).1.content = g.content := by
  cases g
  rfl

mutual

/-- Merging graphs adds up their contents. -/
theorem merge_adds {σ : Registry} (a : Graph Value) :
    ∀ b : Graph Value, σ.Knows (.graph a) → σ.Knows (.graph b) →
      Gives Registry.Exact σ (fun τ g => (τ.Knows (.graph g) ∧ g.name = a.name) ∧
        g.content = a.content.union b.content) (a.merge b)
  | .mk i name directed strict attrs graphAttrs nodeAttrs linkAttrs nodes nodeIndex subgraphs
      subgraphIndex links => by
    intro ha hb
    refine .exact fun υ k hυ hexact => ?_
    replace ha := ha.mono hυ
    replace hb := hb.mono hυ
    rw [merge]
    split
    · rename_i hi
      -- the very same graph, for no number has two elements
      have hsame := Value.graph.inj (hexact.eq_of_knows ha hb rfl (congrArg some hi.symm))
      rw [← hsame]
      exact .pure fun τ hτ => ⟨⟨ha.mono hτ, rfl⟩,
        (union_self (ha.tidy_content hexact.sound)).symm⟩
    · rw [union_content a (hb.indexed hexact.sound)]
      refine (placeNodes_adds (overlaid_draft ha hb) fun n hn =>
        hb.part (.graphNode hn)).bind fun τ g hτ hg => ?_
      refine (placeSubgraphs_adds g subgraphs hg.1.1 fun s hs =>
        (hb.part (.subgraph hs)).mono hτ).bind fun φ h _ hh => ?_
      have hrenew := (renew_gives Registry.keeps_exact hh.1.1).and
        (Q := fun k => k.content = h.content) (content_renew h)
      refine hrenew.mono fun _ _ _ hk => ⟨⟨hk.1.1, ?_⟩, ?_⟩
      · exact hk.1.2.trans (hh.1.2.trans hg.1.2)
      · rw [hk.2, hh.2, hg.2]

theorem placeSubgraphs_adds {σ : Registry} (g : Graph Value) :
    ∀ ss : List (Graph Value), σ.Draft g → (∀ s ∈ ss, σ.Knows (.graph s)) →
      Gives Registry.Exact σ (fun τ h => (τ.Draft h ∧ h.name = g.name) ∧
        h.content = g.content.laySubgraphs (ss.map asMember)) (g.placeSubgraphs ss)
  | [] => by
    intro hg _
    rw [placeSubgraphs]
    refine .pure fun τ hτ => ⟨⟨hg.mono hτ, rfl⟩, ?_⟩
    cases g
    rfl
  | s :: rest => by
    intro hg hss
    refine .exact fun υ k hυ hexact => ?_
    replace hg := hg.mono hυ
    have hs := (hss s List.mem_cons_self).mono hυ
    have hrest : ∀ t ∈ rest, υ.Knows (.graph t) := fun t ht =>
      (hss t (List.mem_cons_of_mem s ht)).mono hυ
    have hcons : g.content.laySubgraphs ((s :: rest).map asMember) =
        (g.content.laySubgraphs [s.asMember]).laySubgraphs (rest.map asMember) :=
      laySubgraphs_append g.content [s.asMember] (rest.map asMember)
    rw [placeSubgraphs, hcons]
    cases hf : g.subgraphAt? s.name with
    | none =>
        rw [← content_appendSubgraph (hg.indexed hexact.sound) hf]
        exact placeSubgraphs_adds (g.appendSubgraph s) rest (draft_appendSubgraph hg hs hf)
          hrest
    | some found =>
        obtain ⟨i, known⟩ := found
        obtain ⟨hnamed, -, hi⟩ := subgraphAt?_eq_some hf
        have hname := (hg.indexed hexact.sound).name_of_subgraphAt? hf
        have hknown := hg.subgraph (List.mem_of_getElem? hi)
        refine (merge_adds known s hknown hs).bind fun τ m hτ hm => ?_
        rw [← content_setSubgraph (hg.indexed hexact.sound) (hname ▸ hnamed) hi hname hm.1.2 hm.2]
        exact placeSubgraphs_adds { g with subgraphs := g.subgraphs.set i m } rest
          (draft_setSubgraph (hg.mono hτ) hm.1.1 hi hm.1.2) fun t ht => (hrest t ht).mono hτ

end

end Graph

/-! ## The laws -/

/-- Merging is associative, and what has been merged already makes no difference, up to content. The
values of the two sides may be made with any numbers that are left. -/
structure MergeLaws (merge : α → α → Supply α) (content : α → α) (n m : Nat) (a b c : α) :
    Prop where
  assoc : content ((merge a b >>= fun ab => merge ab c).run n).1 =
    content ((merge b c >>= fun bc => merge a bc).run m).1
  absorb : content ((merge a b >>= fun ab => merge a ab).run n).1 =
    content ((merge a b).run m).1

/-- The laws hold if merging adds up contents, and adding up contents has the laws. -/
theorem MergeLaws.of_adds {merge : α → α → Supply α} {content : α → α} (value : α → Value)
    (union : α → α → α)
    (hmerge : ∀ {σ : Registry} {a b : α}, σ.Knows (value a) → σ.Knows (value b) →
      Gives Registry.Exact σ (fun τ x => τ.Knows (value x) ∧
        content x = union (content a) (content b)) (merge a b))
    (hn : σ.Exact n) (hm : σ.Exact m) {a b c : α} (ha : σ.Knows (value a))
    (hb : σ.Knows (value b)) (hc : σ.Knows (value c))
    (hassoc : union (union (content a) (content b)) (content c) =
      union (content a) (union (content b) (content c)))
    (habsorb : union (content a) (union (content a) (content b)) =
      union (content a) (content b)) : MergeLaws merge content n m a b c := by
  obtain ⟨τ, hτ, hab, hknown, hcontent⟩ := hmerge ha hb σ n (le_refl σ) hn
  constructor
  · obtain ⟨-, -, -, -, hleft⟩ := hmerge hknown (hc.mono hτ) τ _ (le_refl τ) hab
    obtain ⟨υ, hυ, hbc, hknown', hcontent'⟩ := hmerge hb hc σ m (le_refl σ) hm
    obtain ⟨-, -, -, -, hright⟩ := hmerge (ha.mono hυ) hknown' υ _ (le_refl υ) hbc
    rw [hcontent, hassoc] at hleft
    rw [hcontent'] at hright
    exact hleft.trans hright.symm
  · obtain ⟨-, -, -, -, hagain⟩ := hmerge (ha.mono hτ) hknown τ _ (le_refl τ) hab
    obtain ⟨-, -, -, -, honce⟩ := hmerge ha hb σ m (le_refl σ) hm
    rw [hcontent, habsorb] at hagain
    exact hagain.trans honce.symm

namespace Flow

variable {f : Flow} {ws : List Stack} {h : History}

theorem Known.knows_of_stores {I : Registry → Nat → Prop} (hf : f.Known I σ) {e : Value}
    (he : f.Stores e) : σ.Knows e := by
  obtain ⟨name, v, hv, hve⟩ := he
  exact fun w hw => hf.names name v hv w (hve.trans hw)

/-- **Merging is associative and absorbing** for all nodes and for all graphs that are found in what
a session stores, at any moment of it and at any later one. -/
theorem Reaches.mergeLaws (hf : Reaches initial [] h f ws) (hn : f.world.nextIdent ≤ n)
    (hm : f.world.nextIdent ≤ m) :
    (∀ a b c : Node Value, f.Stores (.node a) → f.Stores (.node b) → f.Stores (.node c) →
      MergeLaws Node.merge Node.content n m a b c) ∧
    (∀ a b c : Graph Value, f.Stores (.graph a) → f.Stores (.graph b) → f.Stores (.graph c) →
      MergeLaws Graph.merge Graph.content n m a b c) := by
  obtain ⟨σ, hσ⟩ := hf.exact
  constructor
  · intro a b c ha hb hc
    refine MergeLaws.of_adds Value.node Node.absorb Node.merge_adds (hσ.kept.mono hn)
      (hσ.kept.mono hm) (hσ.knows_of_stores ha) (hσ.knows_of_stores hb)
      (hσ.knows_of_stores hc) (Node.absorb_assoc _ _ _) ?_
    rw [← Node.absorb_assoc, Node.absorb_self]
  · intro a b c ha hb hc
    have htidy : ∀ g : Graph Value, f.Stores (.graph g) → g.content.Tidy := fun g hg =>
      (hσ.knows_of_stores hg).tidy_content hσ.kept.sound
    refine MergeLaws.of_adds Value.graph Graph.union
      (fun ha hb => (Graph.merge_adds _ _ ha hb).mono fun _ _ _ h => ⟨h.1.1, h.2⟩)
      (hσ.kept.mono hn) (hσ.kept.mono hm) (hσ.knows_of_stores ha) (hσ.knows_of_stores hb)
      (hσ.knows_of_stores hc) ?_ ?_
    · exact Graph.union_assoc _ _ _ (htidy b hb) (htidy c hc)
    · exact Graph.union_union_self (htidy a ha) (htidy b hb)

/-- The node stored under the name. -/
def node? (f : Flow) (name : String) : Option (Node Value) :=
  match f.names.get? name with
  | some (.node n) => some n
  | _ => none

/-- The graph stored under the name. -/
def graph? (f : Flow) (name : String) : Option (Graph Value) :=
  match f.names.get? name with
  | some (.graph g) => some g
  | _ => none

theorem stores_of_node? {name : String} {a : Node Value} (h : f.node? name = some a) :
    f.Stores (.node a) := by
  unfold node? at h
  split at h
  · rename_i v hv
    exact ⟨name, .node v, hv, Option.some.inj h ▸ .refl⟩
  · cases h

theorem stores_of_graph? {name : String} {g : Graph Value} (h : f.graph? name = some g) :
    f.Stores (.graph g) := by
  unfold graph? at h
  split at h
  · rename_i v hv
    exact ⟨name, .graph v, hv, Option.some.inj h ▸ .refl⟩
  · cases h

/-- Two nodes of one name, one of which links to the other, and three graphs in which they are. The
graphs share subgraphs: an anonymous one, which is in one of them twice, and different versions of
one that has a name. -/
def sharedMembers : List Step := [
  .call (.node (some (.text "a")) [("color", .text "red")]) (some "a"),
  .call (.link "a" [.name "a"]) (some "linked"),
  .call (.graph none []) (some "u"),
  .call (.graph (some (.text "s")) []) (some "s"),
  .call (.addNodes "s" [.name "linked"]) (some "t"),
  .call (.addGraphs "t" [.name "u"]) (some "t"),
  .call (.graph (some (.text "x")) []) (some "x"),
  .call (.addNodes "x" [.name "a"]) (some "x"),
  .call (.addGraphs "x" [.name "u", .name "s"]) (some "x"),
  .call (.graph (some (.text "y")) []) (some "y"),
  .call (.addNodes "y" [.name "linked"]) (some "y"),
  .call (.addGraphs "y" [.name "t", .name "u"]) (some "y"),
  .call (.graph (some (.text "z")) []) (some "z"),
  .call (.addGraphs "z" [.name "u", .name "s", .name "u"]) (some "z")]

/-- The moment after these steps. -/
def sharedFlow : Flow := ((runAll sharedMembers).run initial).2

theorem mergeLaws_shared : sharedFlow.world.nextIdent = 23 ∧
    (∃ a b, sharedFlow.node? "a" = some a ∧ sharedFlow.node? "linked" = some b ∧
      (a.links.length, b.links.length) = (0, 1) ∧
      MergeLaws Node.merge Node.content 23 30 a b a) ∧
    ∃ x y z, sharedFlow.graph? "x" = some x ∧ sharedFlow.graph? "y" = some y ∧
      sharedFlow.graph? "z" = some z ∧
      (x.subgraphs.length, y.subgraphs.length, z.subgraphs.length) = (2, 2, 3) ∧
      MergeLaws Graph.merge Graph.content 23 30 x y z := by
  have hnext : sharedFlow.world.nextIdent = 23 := by decide +kernel
  have hnode : (sharedFlow.node? "a").map (fun n => n.links.length) = some 0 ∧
      (sharedFlow.node? "linked").map (fun n => n.links.length) = some 1 := by decide +kernel
  have hgraph : (sharedFlow.graph? "x").map (fun g => g.subgraphs.length) = some 2 ∧
      (sharedFlow.graph? "y").map (fun g => g.subgraphs.length) = some 2 ∧
      (sharedFlow.graph? "z").map (fun g => g.subgraphs.length) = some 3 := by decide +kernel
  obtain ⟨a, ha, hla⟩ := Option.map_eq_some_iff.1 hnode.1
  obtain ⟨b, hb, hlb⟩ := Option.map_eq_some_iff.1 hnode.2
  obtain ⟨x, hx, hlx⟩ := Option.map_eq_some_iff.1 hgraph.1
  obtain ⟨y, hy, hly⟩ := Option.map_eq_some_iff.1 hgraph.2.1
  obtain ⟨z, hz, hlz⟩ := Option.map_eq_some_iff.1 hgraph.2.2
  have hreaches : Reaches initial [] (historyAll sharedMembers initial) sharedFlow [] :=
    reaches_runAll sharedMembers initial []
  have hlater : sharedFlow.world.nextIdent ≤ 30 := hnext ▸ by decide
  obtain ⟨hnodes, hgraphs⟩ := hreaches.mergeLaws (Nat.le_of_eq hnext) hlater
  refine ⟨hnext, ⟨a, b, ha, hb, by rw [hla, hlb], ?_⟩, x, y, z, hx, hy, hz,
    by rw [hlx, hly, hlz], ?_⟩
  · exact hnodes a b a (stores_of_node? ha) (stores_of_node? hb) (stores_of_node? ha)
  · exact hgraphs x y z (stores_of_graph? hx) (stores_of_graph? hy) (stores_of_graph? hz)

end Flow

end DotDoc
