import DotDoc.Proofs.Dot.Lines
import DotDoc.Proofs.Graph.Twins

set_option autoImplicit false

/-!
# Documents of twins

The blocks of twins differ in nothing but the identity numbers that they remember
(`Graph.Twin.block`), and these do not show in the text. So graphs that look alike have the same
text, or neither can be written (`Graph.Twin.serialize`). The flags of graphs in them do not matter,
only those of the two graphs themselves.
-/

namespace DotDoc

open Dot (Block Edge Endpoint)

variable {ρ ρ' : Type} {π : Pairing ρ ρ'}

/-! ## Statements -/

theorem Graph.Twin.declares {g : Graph ρ} {g' : Graph ρ'} (h : Graph.Twin π g g') (name : Label) :
    g.declares name = g'.declares name := by
  cases h with
  | intro _ _ _ nodes _ _ =>
      refine any_of_forall₂ (fun n n' hn => ?_) nodes
      cases hn with
      | intro _ hname _ _ => rw [hname]

theorem Graph.Twin.statedNodes {g : Graph ρ} {g' : Graph ρ'} {ss : List (Source ρ)}
    {ss' : List (Source ρ')} (h : Graph.Twin π g g') (hss : List.Forall₂ (Source.Twin π) ss ss') :
    List.Forall₂ (Node.Twin π) (g.statedNodes ss) (g'.statedNodes ss') := by
  refine forall₂_filter (fun n n' hn => ?_) (Source.Twin.nodes hss)
  have hkeys := Source.Twin.contains_targetKeys hss (.node n.name)
  cases hn with
  | intro _ hname hattrs hlinks =>
      rw [hname, hattrs, isEmpty_of_forall₂ hlinks, h.declares, hkeys]

/-! ## Ends -/

theorem RecordName.Twin.written {r : RecordName ρ} {r' : RecordName ρ'}
    (h : RecordName.Twin π r r') : Alike (Unwritable.Twin π) Eq r.written r'.written := by
  cases h with
  | absent => exact .ok rfl
  | text s => exact .ok rfl
  | label l => exact .ok rfl
  | foreign h => exact .error (.record h)

/-- Two ends show the same. -/
def Dot.Endpoint.SameBare (p q : Endpoint) : Prop := p.bare = q.bare

theorem Port.Twin.ofPort {p : Port ρ} {p' : Port ρ'} (h : Port.Twin π p p') (name : Label) :
    Alike (Unwritable.Twin π) Endpoint.SameBare (Endpoint.ofPort name p)
      (Endpoint.ofPort name p') := by
  refine h.record.written.bind fun r r' _ hr => .ok ?_
  rw [hr, h.compass]
  rfl

theorem Dot.Endpoint.ofPoint_twin {p : NodePoint ρ} {p' : NodePoint ρ'}
    (ha : Anchor.Twin π p.anchor p'.anchor) (hp : Place.Twin π p.place p'.place) :
    Alike (Unwritable.Twin π) Endpoint.SameBare (Endpoint.ofPoint p) (Endpoint.ofPoint p') := by
  obtain ⟨i, anchor, place⟩ := p
  obtain ⟨i', anchor', place'⟩ := p'
  cases ha with
  | foreign h => exact .error (.anchor h)
  | @source s s' hs =>
      cases hp with
      | foreign h => exact .error (.place h)
      | @port q q' hq =>
          show Alike _ _ (Endpoint.ofPort s.name q) (Endpoint.ofPort s'.name q')
          rw [hs.name]
          exact hq.ofPort s.name

theorem Dot.Edge.ofEnds_twin {l : Link ρ} {l' : Link ρ'} (hl : Link.Twin π l l')
    {source target : Except (Unwritable ρ) Endpoint}
    {source' target' : Except (Unwritable ρ') Endpoint}
    (hs : Alike (Unwritable.Twin π) Endpoint.SameBare source source')
    (ht : Alike (Unwritable.Twin π) Endpoint.SameBare target target') :
    Alike (Unwritable.Twin π) (fun e e' => e.bare = e'.bare) (Edge.ofEnds l source target)
      (Edge.ofEnds l' source' target') := by
  cases hl with
  | intro _ _ _ hattrs =>
      refine hs.bind fun p p' _ hp => ht.bind fun q q' _ hq => .ok ?_
      rw [Edge.bare_eq, Edge.bare_eq, hp, hq, hattrs]

/-! ## Blocks -/

/-- The blocks of these graphs differ in numbers alone, or neither can be written. -/
def Graph.SameBlock (π : Pairing ρ ρ') (k : Graph ρ) (k' : Graph ρ') : Prop :=
  Alike (Unwritable.Twin π) (fun b b' => b.bare = b'.bare) k.block k'.block

theorem Graph.SameBlock.endpoint {k : Graph ρ} {k' : Graph ρ'} (h : Graph.SameBlock π k k') :
    Alike (Unwritable.Twin π) Endpoint.SameBare (k.block.map .block) (k'.block.map .block) :=
  Alike.map h fun _ _ hb => congrArg Endpoint.block hb

/-- The ends at twin sources look alike if the blocks of the sources do. -/
theorem Source.Twin.endpoint {s : Source ρ} {s' : Source ρ'} {l : Link ρ} {l' : Link ρ'}
    (hs : Source.Twin π s s') (hl : Link.Twin π l l')
    (hblock : ∀ k k', s = .graph k → Graph.Twin π k k' → Graph.SameBlock π k k') :
    Alike (Unwritable.Twin π) Endpoint.SameBare (s.endpoint l) (s'.endpoint l') := by
  cases hs with
  | @node n n' hn =>
      have hname := (Source.Twin.node hn).name
      show Alike _ _ (Endpoint.ofPort n.name l.sourcePort) (Endpoint.ofPort n'.name l'.sourcePort)
      rw [show n'.name = n.name from hname]
      cases hl with
      | intro _ _ hport _ => exact hport.ofPort n.name
  | graph hk => exact (hblock _ _ rfl hk).endpoint

/-- The ends at twin targets look alike if the blocks of the targets do. -/
theorem Target.Twin.endpoint {t : Target ρ} {t' : Target ρ'} (ht : Target.Twin π t t')
    (hblock : ∀ k k', t = .graph k → Graph.Twin π k k' → Graph.SameBlock π k k') :
    Alike (Unwritable.Twin π) Endpoint.SameBare t.endpoint t'.endpoint := by
  cases ht with
  | point ha hp => exact Endpoint.ofPoint_twin ha hp
  | graph hk => exact (hblock _ _ rfl hk).endpoint
  | foreign h => exact .error (.target h)

theorem Dot.Block.bare_eq {b b' : Block} (hname : b.name = b'.name)
    (hgraph : b.graphAttrs = b'.graphAttrs) (hnode : b.nodeAttrs = b'.nodeAttrs)
    (hedge : b.edgeAttrs = b'.edgeAttrs) (hattrs : b.attrs = b'.attrs) (hnodes : b.nodes = b'.nodes)
    (halone : b.alone.map Block.bare = b'.alone.map Block.bare)
    (hedges : b.edges.map Edge.bare = b'.edges.map Edge.bare) : b.bare = b'.bare := by
  obtain ⟨_, name, graphAttrs, nodeAttrs, edgeAttrs, attrs, nodes, alone, edges⟩ := b
  obtain ⟨_, name', graphAttrs', nodeAttrs', edgeAttrs', attrs', nodes', alone', edges'⟩ := b'
  cases hname
  cases hgraph
  cases hnode
  cases hedge
  cases hattrs
  cases hnodes
  simp only [Block.bare, bareBlocks_eq, bareEdges_eq, halone, hedges]

/-- **The blocks of twins differ in numbers alone.** -/
theorem Graph.Twin.block {g : Graph ρ} {g' : Graph ρ'} (h : Graph.Twin π g g') :
    Graph.SameBlock π g g' := by
  rw [Graph.SameBlock, g.block_eq, g'.block_eq]
  refine h.sources.bind fun ss ss' hss hsources => ?_
  -- the blocks of smaller graphs, which stand alone or at the ends of edges
  have halone : ∀ k ∈ Source.aloneGraphs ss, ∀ k', Graph.Twin π k k' → Graph.SameBlock π k k' :=
    fun k hk k' hkk => Graph.Twin.block hkk
  have hedges : ∀ x ∈ Source.edges ss, ∀ x' : Source ρ' × Link ρ',
      Source.Twin π x.1 x'.1 ∧ Link.Twin π x.2 x'.2 →
      Alike (Unwritable.Twin π) (fun e e' => e.bare = e'.bare)
        (Edge.ofEnds x.2 (x.1.endpoint x.2) x.2.target.endpoint)
        (Edge.ofEnds x'.2 (x'.1.endpoint x'.2) x'.2.target.endpoint) := by
    rintro ⟨s, l⟩ hx ⟨s', l'⟩ ⟨hs, hl⟩
    refine Edge.ofEnds_twin hl (hs.endpoint hl fun k k' hk hkk => ?_)
      (hl.target.endpoint fun k k' ht hkk => ?_)
    · subst hk
      exact Graph.Twin.block hkk
    · exact Graph.Twin.block hkk
  refine (Alike.mapM (Source.Twin.aloneGraphs hsources) halone).bind fun bs bs' _ hbs => ?_
  refine (Alike.mapM (Source.Twin.edges hsources) hedges).bind fun es es' _ hes => .ok ?_
  have hnodes := h.statedNodes hsources
  cases h with
  | intro _ hname htables _ _ _ =>
      apply Dot.Block.bare_eq
      · exact hname.symm
      · exact congrArg AttrTable.written (htables .graphs).symm
      · exact congrArg AttrTable.written (htables .nodes).symm
      · exact congrArg AttrTable.written (htables .links).symm
      · exact congrArg AttrTable.written (htables .general).symm
      · refine map_of_forall₂ (fun n n' hn => ?_) hnodes
        cases hn with
        | intro _ hname hattrs _ => rw [hname, hattrs]
      · exact map_of_forall₂ (fun _ _ hb => hb) hbs
      · exact map_of_forall₂ (fun _ _ he => he) hes
termination_by (Source.graph g).weight
decreasing_by
  · exact Graph.sizeOf_aloneGraphs hss hk
  · exact Graph.sizeOf_edgeSource hss hx
  · exact Graph.sizeOf_edgeTarget hss hx ht

/-- **Twins have the same text, or neither can be written.** -/
theorem Graph.Twin.serialize {g : Graph ρ} {g' : Graph ρ'} (h : Graph.Twin π g g')
    (hdirected : g'.directed = g.directed) (hstrict : g'.strict = g.strict) (d : Dot.Dialect) :
    Alike (Unwritable.Twin π) Eq (g.serialize d) (g'.serialize d) := by
  refine Alike.bind (R := fun doc doc' => doc.bare = doc'.bare) ?_ fun doc doc' _ h => .ok ?_
  · refine h.block.bind fun b b' _ hb => .ok ?_
    rw [Dot.Document.bare, Dot.Document.bare, hb, hdirected, hstrict]
  · rw [← doc.text_bare, ← doc'.text_bare, h]

end DotDoc
