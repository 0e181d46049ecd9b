import DotDoc.Graph.Merge
import DotDoc.Proofs.Session.Registry

set_option autoImplicit false

/-!
# Making elements

Elements are made with the numbers that are left. A computation that makes some gives a result of a
kind if, whatever has been recorded meanwhile, the elements that it makes can be recorded so that
the result is of that kind (`Supply.Gives`). What is kept of the registry and of the next number
along the way may be anything that handing out a number and recording a well made element under it
keeps (`Registry.Keeps`).

New elements made of known ones are known, and so are the outcomes of merging and of adding members
(`Node.merge_gives`, `Graph.placeNodes_gives`, `Graph.merge_gives`).
-/

namespace DotDoc

/-! ## What handing out numbers keeps -/

/-- Handing out the next number keeps the condition, and so does recording a new element or endpoint
under it that is made of known parts and is well made if all others are. -/
structure Registry.Keeps (I : Registry → Nat → Prop) : Prop where
  skip : ∀ {σ n}, I σ n → I σ (n + 1)
  record : ∀ {σ n v}, I σ n → (∀ w, Value.Part v w → σ.Knows w) → (σ.Sound → v.WellMade) →
    I (σ.record n v) (n + 1)

variable {I : Registry → Nat → Prop} {σ τ : Registry} {α β : Type}

namespace Supply

/-- From a registry on, the computation gives results of the kind `P`. -/
def Gives (I : Registry → Nat → Prop) (σ : Registry) (P : Registry → α → Prop) (s : Supply α) :
    Prop :=
  ∀ τ n, σ ≤ τ → I τ n → ∃ υ, τ ≤ υ ∧ I υ (s.run n).2 ∧ P υ (s.run n).1

theorem Gives.pure {P : Registry → α → Prop} {a : α} (h : ∀ τ, σ ≤ τ → P τ a) :
    Gives I σ P (Pure.pure a : Supply α) :=
  fun τ _ hτ hI => ⟨τ, le_refl τ, hI, h τ hτ⟩

theorem Gives.bind {P : Registry → α → Prop} {Q : Registry → β → Prop} {s : Supply α}
    {f : α → Supply β} (hs : Gives I σ P s)
    (hf : ∀ τ a, σ ≤ τ → P τ a → Gives I τ Q (f a)) : Gives I σ Q (s >>= f) := by
  intro τ n hτ hI
  obtain ⟨υ, hτυ, hI, hP⟩ := hs τ n hτ hI
  obtain ⟨φ, hυφ, hI, hQ⟩ := hf υ _ (le_trans hτ hτυ) hP υ _ (le_refl υ) hI
  exact ⟨φ, le_trans hτυ hυφ, hI, hQ⟩

theorem Gives.mono {P Q : Registry → α → Prop} {s : Supply α} (hs : Gives I σ P s)
    (h : ∀ τ a, σ ≤ τ → P τ a → Q τ a) : Gives I σ Q s := by
  intro τ n hτ hI
  obtain ⟨υ, hτυ, hI, hP⟩ := hs τ n hτ hI
  exact ⟨υ, hτυ, hI, h υ _ (le_trans hτ hτυ) hP⟩

/-- A number that is used for nothing that is recorded. -/
theorem Gives.next (hK : Registry.Keeps I) : Gives I σ (fun _ _ => True) Supply.next :=
  fun τ _ _ hI => ⟨τ, le_refl τ, hK.skip hI, trivial⟩

/-- A new element with known parts. -/
theorem Gives.element (hK : Registry.Keeps I) (value : α → Value) (make : Nat → α) (P : α → Prop)
    (hi : ∀ n, (value (make n)).number? = some n) (hP : ∀ n, P (make n))
    (hparts : ∀ n w, (value (make n)).Part w → σ.Knows w)
    (hmade : ∀ n, σ.Sound → (value (make n)).WellMade) :
    Gives I σ (fun τ a => τ.Knows (value a) ∧ P a) (do return make (← Supply.next)) := by
  intro τ n hτ hI
  -- the element is recorded under the number that it is made with
  have hknown : ∀ w, Value.Part (value (make n)) w → τ.Knows w :=
    fun w hw => (hparts n w hw).mono hτ
  refine ⟨τ.record n (value (make n)), τ.le_record n _, hK.record hI hknown ?_, ?_, hP n⟩
  · exact fun h => hmade n (h.mono hτ)
  · exact .record (hi n) hknown

end Supply

open Supply (Gives)

/-! ## Ports and endpoints -/

theorem Port.make_gives (hK : Registry.Keeps I) {r : RecordName Value} (c : Option Compass)
    (hr : σ.Knows (.ofRecord r)) :
    Gives I σ (fun τ p => τ.Knows (.port p)) (Port.make r c) :=
  (Gives.next hK).bind fun _ _ hτ _ =>
    .pure fun _ hυ => .port (hr.mono (le_trans hτ hυ))

theorem NodePoint.make_gives (hK : Registry.Keeps I) {a : Anchor Value} {p : Place Value}
    (ha : σ.Knows (.ofAnchor a)) (hp : σ.Knows (.ofPlace p)) :
    Gives I σ (fun τ q => τ.Knows (.point q)) (NodePoint.make a p) := by
  have hpoint : Gives I σ (fun τ q => τ.Knows (.point q) ∧ True) (NodePoint.make a p) := by
    apply Gives.element hK Value.point (fun i => ⟨i, a, p⟩) (fun _ => True)
    · exact fun _ => rfl
    · exact fun _ => trivial
    · intro i w hw
      cases hw with
      | anchor => exact ha
      | place => exact hp
    · intro i _ g hg
      cases hg
  exact hpoint.mono fun _ _ _ h => h.1

theorem Node.pointAt_gives (hK : Registry.Keeps I) {n : Node Value} {p : Port Value}
    (hn : σ.Knows (.node n)) (hp : σ.Knows (.port p)) :
    Gives I σ (fun τ q => τ.Knows (.point q)) (n.pointAt p) :=
  NodePoint.make_gives hK hn hp

/-! ## Links and nodes -/

theorem Link.make_gives (hK : Registry.Keeps I) {t : Target Value} {p : Port Value}
    (attrs : AttrTable) (ht : σ.Knows (.ofTarget t)) (hp : σ.Knows (.port p)) :
    Gives I σ (fun τ l => τ.Knows (.link l)) (Link.make t p attrs) := by
  have hlink : Gives I σ (fun τ l => τ.Knows (.link l) ∧ True) (Link.make t p attrs) := by
    apply Gives.element hK Value.link (fun i => ⟨i, t, p, attrs⟩) (fun _ => True)
    · exact fun _ => rfl
    · exact fun _ => trivial
    · intro i w hw
      cases hw with
      | target => exact ht
      | sourcePort => exact hp
    · intro i _ g hg
      cases hg
  exact hlink.mono fun _ _ _ h => h.1

/-- A link under a new number. -/
theorem Link.renew_gives (hK : Registry.Keeps I) {l : Link Value} (hl : σ.Knows (.link l))
    (attrs : AttrTable) :
    Gives I σ (fun τ m => τ.Knows (.link m)) (Link.renew { l with attrs }) :=
  Link.make_gives hK attrs (hl.part (.target l)) (hl.part (.sourcePort l))

/-- A node with known links under a new number. -/
theorem Node.renew_gives (hK : Registry.Keeps I) {n : Node Value}
    (hn : ∀ l ∈ n.links, σ.Knows (.link l)) :
    Gives I σ (fun τ m => τ.Knows (.node m) ∧ m.name = n.name) n.renew := by
  apply Gives.element hK Value.node (fun i => { n with ident := i }) (fun m => m.name = n.name)
  · exact fun _ => rfl
  · exact fun _ => rfl
  · intro i w hw
    cases hw with
    | nodeLink h => exact hn _ h
  · intro i _ g hg
    cases hg

theorem Node.make_gives (hK : Registry.Keeps I) (name : Label) (attrs : AttrTable) :
    Gives I σ (fun τ n => τ.Knows (.node n)) (Node.make name attrs) :=
  (Node.renew_gives hK (n := ⟨0, name, attrs, []⟩) fun _ h => absurd h List.not_mem_nil).mono
    fun _ _ _ h => h.1

theorem Node.addLinks_gives (hK : Registry.Keeps I) {n : Node Value} {ls : List (Link Value)}
    (hn : σ.Knows (.node n)) (hls : ∀ l ∈ ls, σ.Knows (.link l)) :
    Gives I σ (fun τ m => τ.Knows (.node m)) (n.addLinks ls) := by
  refine (Node.renew_gives hK fun l hl => ?_).mono fun _ _ _ h => h.1
  rcases List.mem_append.1 hl with hl | hl
  · exact hn.part (.nodeLink hl)
  · exact hls l hl

/-- Merging nodes gives a node of the first one's name. -/
theorem Node.merge_gives (hK : Registry.Keeps I) {a b : Node Value} (ha : σ.Knows (.node a))
    (hb : σ.Knows (.node b)) :
    Gives I σ (fun τ m => τ.Knows (.node m) ∧ m.name = a.name) (a.merge b) := by
  unfold Node.merge
  split
  · exact .pure fun τ hτ => ⟨ha.mono hτ, rfl⟩
  · refine Node.renew_gives (n := a.absorb b) hK fun l hl => ?_
    rcases List.mem_append.1 hl with hl | hl
    · exact ha.part (.nodeLink hl)
    · exact hb.part (.nodeLink (List.mem_filter.1 hl).1)

/-! ## Graphs -/

namespace Graph

/-- A draft becomes a graph under a new number. -/
theorem renew_gives (hK : Registry.Keeps I) {g : Graph Value} (hg : σ.Draft g) :
    Gives I σ (fun τ h => τ.Knows (.graph h) ∧ h.name = g.name) g.renew := by
  apply Gives.element hK Value.graph (fun i => { g with ident := i }) (fun h => h.name = g.name)
  · exact fun _ => rfl
  · exact fun _ => rfl
  · intro i w hw
    cases hw with
    | graphNode h => exact hg.node h
    | subgraph h => exact hg.subgraph h
    | graphLink h => exact hg.link h
  · intro i hσ h hh
    cases hh
    have hi := hg.indexed hσ
    exact ⟨hi.nodes, hi.subgraphs, hi.links⟩

theorem make_gives (hK : Registry.Keeps I) (name : Label) (directed strict : Bool)
    (attrs : AttrTable) :
    Gives I σ (fun τ g => τ.Knows (.graph g)) (Graph.make name directed strict attrs) := by
  refine (renew_gives hK (g := ⟨0, name, directed, strict, attrs, ∅, ∅, ∅, [], ∅, [], ∅, []⟩)
    ?_).mono fun _ _ _ h => h.1
  apply Registry.draft_of
  · exact fun _ h => absurd h List.not_mem_nil
  · exact fun _ h => absurd h List.not_mem_nil
  · exact fun _ h => absurd h List.not_mem_nil
  · exact fun _ => indexed_make 0 name directed strict attrs ∅ ∅ ∅

/-! ## Adding nodes -/

theorem draft_appendNode {g : Graph Value} {n : Node Value} (hg : σ.Draft g)
    (hn : σ.Knows (.node n)) (hf : g.nodeAt? n.name = none) : σ.Draft (g.appendNode n) := by
  apply Registry.draft_of
  · intro m hm
    rcases List.mem_append.1 hm with hm | hm
    · exact hg.node hm
    · rw [List.mem_singleton.1 hm]
      exact hn
  · exact fun s hs => hg.subgraph hs
  · exact fun l hl => hg.link hl
  · exact fun hS => (hg.indexed hS).appendNode hf

theorem draft_setNode {g : Graph Value} {known n : Node Value} {i : Nat} (hg : σ.Draft g)
    (hn : σ.Knows (.node n)) (hi : g.nodes[i]? = some known) (hname : n.name = known.name) :
    σ.Draft { g with nodes := g.nodes.set i n } := by
  apply Registry.draft_of
  · intro m hm
    rcases List.mem_or_eq_of_mem_set hm with hm | rfl
    · exact hg.node hm
    · exact hn
  · exact fun s hs => hg.subgraph hs
  · exact fun l hl => hg.link hl
  · exact fun hS => (hg.indexed hS).setNode hi hname

theorem placeNode_gives (hK : Registry.Keeps I) {g : Graph Value} {n : Node Value}
    (hg : σ.Draft g) (hn : σ.Knows (.node n)) :
    Gives I σ (fun τ h => τ.Draft h ∧ h.name = g.name) (g.placeNode n) := by
  unfold placeNode
  cases hf : g.nodeAt? n.name with
  | none => exact .pure fun τ hτ => ⟨draft_appendNode (hg.mono hτ) (hn.mono hτ) hf, rfl⟩
  | some found =>
      obtain ⟨i, known⟩ := found
      obtain ⟨-, hi⟩ := nodeAt?_eq_some hf
      have hknown := hg.node (List.mem_of_getElem? hi)
      -- the merged node keeps the name, so the index still fits
      refine (Node.merge_gives hK hknown hn).bind fun τ m hτ hm => ?_
      exact .pure fun υ hυ =>
        ⟨draft_setNode (hg.mono (le_trans hτ hυ)) (hm.1.mono hυ) hi hm.2, rfl⟩

theorem placeNodes_gives (hK : Registry.Keeps I) {ns : List (Node Value)} {σ : Registry}
    {g : Graph Value} (hg : σ.Draft g) (hns : ∀ n ∈ ns, σ.Knows (.node n)) :
    Gives I σ (fun τ h => τ.Draft h ∧ h.name = g.name) (g.placeNodes ns) := by
  induction ns generalizing σ g with
  | nil => exact .pure fun τ hτ => ⟨hg.mono hτ, rfl⟩
  | cons n rest ih =>
      show Gives I σ _ (g.placeNode n >>= fun h => h.placeNodes rest)
      refine (placeNode_gives hK hg (hns n List.mem_cons_self)).bind fun τ h hτ hh => ?_
      have hrest : ∀ m ∈ rest, τ.Knows (.node m) := fun m hm =>
        (hns m (List.mem_cons_of_mem n hm)).mono hτ
      exact (ih hh.1 hrest).mono fun υ k _ hk => ⟨hk.1, hk.2.trans hh.2⟩

theorem addNodes_gives (hK : Registry.Keeps I) {g : Graph Value} {ns : List (Node Value)}
    (hg : σ.Knows (.graph g)) (hns : ∀ n ∈ ns, σ.Knows (.node n)) :
    Gives I σ (fun τ h => τ.Knows (.graph h)) (g.addNodes ns) :=
  (placeNodes_gives hK hg.draft hns).bind fun _ _ _ hh =>
    (renew_gives hK hh.1).mono fun _ _ _ h => h.1

/-! ## Merging graphs -/

theorem overlaid_draft {a b : Graph Value} (ha : σ.Knows (.graph a)) (hb : σ.Knows (.graph b)) :
    σ.Draft (a.overlaid b) := by
  apply Registry.draft_of
  · exact fun n hn => ha.part (.graphNode hn)
  · exact fun s hs => ha.part (.subgraph hs)
  · intro l hl
    rcases List.mem_append.1 hl with hl | hl
    · exact ha.part (.graphLink hl)
    · exact hb.part (.graphLink (List.mem_filter.1 hl).1)
  · exact fun hS => (ha.indexed hS).overlaid (hb.indexed hS)

theorem draft_appendSubgraph {g s : Graph Value} (hg : σ.Draft g) (hs : σ.Knows (.graph s))
    (hf : g.subgraphAt? s.name = none) : σ.Draft (g.appendSubgraph s) := by
  apply Registry.draft_of
  · exact fun n hn => hg.node hn
  · intro t ht
    rcases List.mem_append.1 ht with ht | ht
    · exact hg.subgraph ht
    · rw [List.mem_singleton.1 ht]
      exact hs
  · exact fun l hl => hg.link hl
  · exact fun hS => (hg.indexed hS).appendSubgraph hf

theorem draft_setSubgraph {g known s : Graph Value} {i : Nat} (hg : σ.Draft g)
    (hs : σ.Knows (.graph s)) (hi : g.subgraphs[i]? = some known) (hname : s.name = known.name) :
    σ.Draft { g with subgraphs := g.subgraphs.set i s } := by
  apply Registry.draft_of
  · exact fun n hn => hg.node hn
  · intro t ht
    rcases List.mem_or_eq_of_mem_set ht with ht | rfl
    · exact hg.subgraph ht
    · exact hs
  · exact fun l hl => hg.link hl
  · exact fun hS => (hg.indexed hS).setSubgraph hi hname

mutual

/-- Merging graphs gives a graph of the first one's name. -/
theorem merge_gives (hK : Registry.Keeps I) {σ : Registry} (a : Graph Value) :
    ∀ b : Graph Value, σ.Knows (.graph a) → σ.Knows (.graph b) →
      Gives I σ (fun τ g => τ.Knows (.graph g) ∧ g.name = a.name) (a.merge b)
  | .mk i name directed strict attrs graphAttrs nodeAttrs linkAttrs nodes nodeIndex subgraphs
      subgraphIndex links => by
    intro ha hb
    rw [merge]
    split
    · exact .pure fun τ hτ => ⟨ha.mono hτ, rfl⟩
    · refine (placeNodes_gives hK (overlaid_draft ha hb) fun n hn =>
        hb.part (.graphNode hn)).bind fun τ g hτ hg => ?_
      refine (placeSubgraphs_gives hK g subgraphs hg.1 fun s hs =>
        (hb.part (.subgraph hs)).mono hτ).bind fun υ h _ hh => ?_
      exact (renew_gives hK hh.1).mono fun _ _ _ hk =>
        ⟨hk.1, hk.2.trans (hh.2.trans hg.2)⟩

theorem placeSubgraphs_gives (hK : Registry.Keeps I) {σ : Registry} (g : Graph Value) :
    ∀ ss : List (Graph Value), σ.Draft g → (∀ s ∈ ss, σ.Knows (.graph s)) →
      Gives I σ (fun τ h => τ.Draft h ∧ h.name = g.name) (g.placeSubgraphs ss)
  | [] => by
    intro hg _
    rw [placeSubgraphs]
    exact .pure fun τ hτ => ⟨hg.mono hτ, rfl⟩
  | s :: rest => by
    intro hg hss
    have hs := hss s List.mem_cons_self
    have hrest : ∀ t ∈ rest, σ.Knows (.graph t) := fun t ht => hss t (List.mem_cons_of_mem s ht)
    rw [placeSubgraphs]
    cases hf : g.subgraphAt? s.name with
    | none =>
        exact placeSubgraphs_gives hK (g.appendSubgraph s) rest (draft_appendSubgraph hg hs hf)
          hrest
    | some found =>
        obtain ⟨i, known⟩ := found
        obtain ⟨-, -, hi⟩ := subgraphAt?_eq_some hf
        have hknown := hg.subgraph (List.mem_of_getElem? hi)
        refine (merge_gives hK known s hknown hs).bind fun τ m hτ hm => ?_
        exact placeSubgraphs_gives hK { g with subgraphs := g.subgraphs.set i m } rest
          (draft_setSubgraph (hg.mono hτ) hm.1 hi hm.2) fun t ht => (hrest t ht).mono hτ

end

theorem addSubgraphs_gives (hK : Registry.Keeps I) {g : Graph Value} {ss : List (Graph Value)}
    (hg : σ.Knows (.graph g)) (hss : ∀ s ∈ ss, σ.Knows (.graph s)) :
    Gives I σ (fun τ h => τ.Knows (.graph h)) (g.addSubgraphs ss) :=
  (placeSubgraphs_gives hK g ss hg.draft hss).bind fun _ _ _ hh =>
    (renew_gives hK hh.1).mono fun _ _ _ h => h.1

/-- The links that are added leave the graph at no port. -/
theorem addLinks_gives (hK : Registry.Keeps I) {g : Graph Value} {ls : List (Link Value)}
    (hg : σ.Knows (.graph g)) (hls : ∀ l ∈ ls, σ.Knows (.link l))
    (hports : ∀ l ∈ ls, l.sourcePort.isEmpty = true) :
    Gives I σ (fun τ h => τ.Knows (.graph h)) (g.addLinks ls) := by
  refine (renew_gives hK ?_).mono fun _ _ _ h => h.1
  apply Registry.draft_of
  · exact fun n hn => hg.part (.graphNode hn)
  · exact fun s hs => hg.part (.subgraph hs)
  · intro l hl
    rcases List.mem_append.1 hl with hl | hl
    · exact hg.part (.graphLink hl)
    · exact hls l hl
  · intro hS
    have hi := hg.indexed hS
    refine ⟨hi.nodes, hi.subgraphs, ?_⟩
    intro l hl
    rcases List.mem_append.1 hl with hl | hl
    · exact hi.links l hl
    · exact hports l hl

end Graph

end DotDoc
