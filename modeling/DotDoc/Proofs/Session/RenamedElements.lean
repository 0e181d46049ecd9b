import DotDoc.Proofs.Session.Matching

set_option autoImplicit false

/-!
# Building graphs under other numbers

The operations that make, merge and update elements do the same on values with other numbers: what
they give is what they would have given, under other numbers. The defaults of the innermost active
context come in with new elements, and are the same by what the contexts hold.

Main statements: `Graph.merge_matches`, `Value.toText_acts`, `Act.changeAttributes_acts`,
`Act.addLinks_acts`, `Act.merge_acts`.
-/

namespace DotDoc

variable {ν : Renaming}

/-! ## Making elements -/

theorem Supply.next_matches : ν.Matches ν.ident Supply.next Supply.next where
  le n := Nat.le_succ n
  run n m _ hallots := by
    refine ⟨(hallots 0 (Nat.lt_succ_self n)).1.symm, ?_, trivial, trivial⟩
    show m + 1 = m + (n + 1 - n)
    omega

theorem Node.make_matches (name : Label) (attrs : AttrTable) :
    ν.Matches (Node.rename ν) (Node.make name attrs) (Node.make name attrs) :=
  Supply.next_matches.bind fun _ => .pure rfl

theorem Port.make_matches (r : RecordName Value) (c : Option Compass) :
    ν.Matches (Port.rename ν) (Port.make r c) (Port.make (r.rename ν) c) :=
  Supply.next_matches.bind fun _ => .pure rfl

theorem NodePoint.make_matches (a : Anchor Value) (p : Place Value) :
    ν.Matches (NodePoint.rename ν) (NodePoint.make a p)
      (NodePoint.make (a.rename ν) (p.rename ν)) :=
  Supply.next_matches.bind fun _ => .pure rfl

theorem Node.pointAt_matches (n : Node Value) (p : Port Value) :
    ν.Matches (NodePoint.rename ν) (n.pointAt p) ((n.rename ν).pointAt (p.rename ν)) :=
  NodePoint.make_matches (.source (.node n)) (.port p)

theorem Link.make_matches (t : Target Value) (p : Port Value) (attrs : AttrTable) :
    ν.Matches (Link.rename ν) (Link.make t p attrs)
      (Link.make (t.rename ν) (p.rename ν) attrs) :=
  Supply.next_matches.bind fun _ => .pure rfl

theorem Node.renew_matches (n : Node Value) :
    ν.Matches (Node.rename ν) n.renew (n.rename ν).renew :=
  Supply.next_matches.bind fun _ => .pure (by cases n; rfl)

theorem Link.renew_matches (l : Link Value) :
    ν.Matches (Link.rename ν) l.renew (l.rename ν).renew :=
  Supply.next_matches.bind fun _ => .pure (by cases l; rfl)

theorem Node.addLinks_matches (n : Node Value) (ls : List (Link Value)) :
    ν.Matches (Node.rename ν) (n.addLinks ls) ((n.rename ν).addLinks (ls.map (Link.rename ν))) := by
  have hlinks : Node.rename ν { n with links := n.links ++ ls } =
      { n.rename ν with links := (n.rename ν).links ++ ls.map (Link.rename ν) } := by
    rw [Node.links_rename, ← List.map_append, ← renameLinks_eq_map]
    cases n
    rfl
  rw [Node.addLinks, Node.addLinks, ← hlinks]
  exact Node.renew_matches _

theorem Node.merge_matches (a b : Node Value) :
    ν.Matches (Node.rename ν) (a.merge b) ((a.rename ν).merge (b.rename ν)) := by
  rw [Node.merge, Node.merge, Node.ident_rename, Node.ident_rename]
  by_cases h : a.ident = b.ident
  · rw [if_pos h, if_pos (congrArg ν.ident h)]
    exact .pure rfl
  · rw [if_neg h, if_neg fun h' => h (ν.ident_injective h'), Node.absorb_rename]
    exact Node.renew_matches _

namespace Graph

theorem make_matches (name : Label) (directed strict : Bool) (attrs : AttrTable) :
    ν.Matches (Graph.rename ν) (Graph.make name directed strict attrs)
      (Graph.make name directed strict attrs) :=
  Supply.next_matches.bind fun _ => .pure rfl

theorem renew_matches (g : Graph Value) : ν.Matches (Graph.rename ν) g.renew (g.rename ν).renew :=
  Supply.next_matches.bind fun _ => .pure (by cases g; rfl)

theorem withTable_rename (g : Graph Value) (t : AttrTable) (slot : GraphTable) :
    (g.rename ν).withTable t slot = (g.withTable t slot).rename ν := by
  cases g
  cases slot <;> rfl

/-! ## Members -/

theorem nodeAt?_rename (g : Graph Value) (name : Label) :
    (g.rename ν).nodeAt? name = (g.nodeAt? name).map (Prod.map id (Node.rename ν)) := by
  rw [nodeAt?, nodeAt?, nodeIndex_rename, nodes_rename]
  cases g.nodeIndex.get? name with
  | none => rfl
  | some i =>
      show ((g.nodes.map (Node.rename ν))[i]?.bind fun n => some (i, n)) = _
      rw [List.getElem?_map]
      show _ = Option.map _ (g.nodes[i]?.bind fun n => some (i, n))
      cases g.nodes[i]? <;> rfl

theorem subgraphAt?_rename (g : Graph Value) (name : Label) :
    (g.rename ν).subgraphAt? name = (g.subgraphAt? name).map (Prod.map id (Graph.rename ν)) := by
  rw [subgraphAt?, subgraphAt?, subgraphIndex_rename, subgraphs_rename]
  split
  · rfl
  · cases g.subgraphIndex.get? name with
    | none => rfl
    | some i =>
        show ((g.subgraphs.map (Graph.rename ν))[i]?.bind fun s => some (i, s)) = _
        rw [List.getElem?_map]
        show _ = Option.map _ (g.subgraphs[i]?.bind fun s => some (i, s))
        cases g.subgraphs[i]? <;> rfl

theorem appendNode_rename (g : Graph Value) (n : Node Value) :
    (g.rename ν).appendNode (n.rename ν) = (g.appendNode n).rename ν := by
  cases g
  simp [appendNode, Graph.rename]

theorem appendSubgraph_rename (g s : Graph Value) :
    (g.rename ν).appendSubgraph (s.rename ν) = (g.appendSubgraph s).rename ν := by
  cases g
  simp [appendSubgraph, Graph.rename]

/-- The graph with one of its nodes replaced. -/
theorem setNode_rename (g : Graph Value) (i : Nat) (n : Node Value) :
    { g.rename ν with nodes := (g.rename ν).nodes.set i (n.rename ν) } =
      Graph.rename ν { g with nodes := g.nodes.set i n } := by
  cases g
  simp [Graph.rename, List.map_set]

/-- The graph with one of its subgraphs replaced. -/
theorem setSubgraph_rename (g : Graph Value) (i : Nat) (s : Graph Value) :
    { g.rename ν with subgraphs := (g.rename ν).subgraphs.set i (s.rename ν) } =
      Graph.rename ν { g with subgraphs := g.subgraphs.set i s } := by
  cases g
  simp [Graph.rename, List.map_set]

theorem placeNode_matches (g : Graph Value) (n : Node Value) :
    ν.Matches (Graph.rename ν) (g.placeNode n) ((g.rename ν).placeNode (n.rename ν)) := by
  rw [placeNode, placeNode, Node.name_rename, nodeAt?_rename]
  cases g.nodeAt? n.name with
  | none => exact .pure (appendNode_rename g n)
  | some found =>
      obtain ⟨i, known⟩ := found
      exact (Node.merge_matches known n).bind fun merged => .pure (setNode_rename g i merged)

theorem placeNodes_matches (g : Graph Value) (ns : List (Node Value)) :
    ν.Matches (Graph.rename ν) (g.placeNodes ns)
      ((g.rename ν).placeNodes (ns.map (Node.rename ν))) := by
  induction ns generalizing g with
  | nil => exact .pure rfl
  | cons n rest ih =>
      rw [placeNodes, placeNodes, List.map_cons, List.foldlM_cons, List.foldlM_cons]
      exact (placeNode_matches g n).bind fun h => ih h

theorem addNodes_matches (g : Graph Value) (ns : List (Node Value)) :
    ν.Matches (Graph.rename ν) (g.addNodes ns)
      ((g.rename ν).addNodes (ns.map (Node.rename ν))) :=
  (placeNodes_matches g ns).bind renew_matches

theorem addLinks_matches (g : Graph Value) (ls : List (Link Value)) :
    ν.Matches (Graph.rename ν) (g.addLinks ls)
      ((g.rename ν).addLinks (ls.map (Link.rename ν))) := by
  have hlinks : { g.rename ν with links := (g.rename ν).links ++ ls.map (Link.rename ν) } =
      Graph.rename ν { g with links := g.links ++ ls } := by
    cases g
    simp [Graph.rename]
  have h := renew_matches (ν := ν) { g with links := g.links ++ ls }
  rw [← hlinks] at h
  exact h

/-! ## Merging -/

theorem overlaid_rename (a b : Graph Value) :
    (a.rename ν).overlaid (b.rename ν) = (a.overlaid b).rename ν := by
  cases a
  cases b
  simp [overlaid, Graph.rename, Link.beyond_rename]

mutual

theorem merge_matches (a : Graph Value) : ∀ b : Graph Value,
    ν.Matches (Graph.rename ν) (a.merge b) ((a.rename ν).merge (b.rename ν))
  | .mk i name directed strict attrs graphAttrs nodeAttrs linkAttrs nodes nodeIndex subgraphs
      subgraphIndex links => by
    rw [Graph.rename, merge, merge]
    show ν.Matches _ (if a.ident = i then _ else _)
      (if (a.rename ν).ident = ν.ident i then _ else _)
    rw [ident_rename]
    by_cases h : a.ident = i
    · rw [if_pos h, if_pos (congrArg ν.ident h)]
      exact .pure rfl
    · rw [if_neg h, if_neg fun h' => h (ν.ident_injective h')]
      have hover := overlaid_rename (ν := ν) a
        (.mk i name directed strict attrs graphAttrs nodeAttrs linkAttrs nodes nodeIndex subgraphs
          subgraphIndex links)
      rw [Graph.rename] at hover
      rw [hover, renameNodes_eq_map]
      refine (placeNodes_matches _ nodes).bind fun g => ?_
      exact (placeSubgraphs_matches g subgraphs).bind renew_matches

theorem placeSubgraphs_matches (g : Graph Value) : ∀ ss : List (Graph Value),
    ν.Matches (Graph.rename ν) (g.placeSubgraphs ss)
      ((g.rename ν).placeSubgraphs (renameGraphs ν ss))
  | [] => by
    rw [renameGraphs, placeSubgraphs, placeSubgraphs]
    exact .pure rfl
  | s :: rest => by
    rw [renameGraphs, placeSubgraphs, placeSubgraphs, name_rename, subgraphAt?_rename]
    cases g.subgraphAt? s.name with
    | none =>
        have h := placeSubgraphs_matches (g.appendSubgraph s) rest
        rw [← appendSubgraph_rename] at h
        exact h
    | some found =>
        obtain ⟨i, known⟩ := found
        refine (merge_matches known s).bind fun merged => ?_
        have h := placeSubgraphs_matches { g with subgraphs := g.subgraphs.set i merged } rest
        rw [← setSubgraph_rename] at h
        exact h

end

theorem addSubgraphs_matches (g : Graph Value) (ss : List (Graph Value)) :
    ν.Matches (Graph.rename ν) (g.addSubgraphs ss)
      ((g.rename ν).addSubgraphs (ss.map (Graph.rename ν))) := by
  rw [← renameGraphs_eq_map]
  exact (placeSubgraphs_matches g ss).bind renew_matches

end Graph

/-! ## Texts, labels and tables -/

namespace Value

open Renaming (Acts)

theorem toText_acts (v : Value) : ν.ActsSame v.toText (v.rename ν).toText := by
  cases v with
  | text s => exact .pure rfl
  | label l => exact .pure rfl
  | compass c => exact .pure rfl
  | graph g => exact .serialize g .standard
  | _ => exact .debug _

theorem toLabel_acts (v : Value) : ν.ActsSame v.toLabel (v.rename ν).toLabel := by
  cases v with
  | label l => exact .pure rfl
  | _ => exact (toText_acts _).bind fun _ => .pure rfl

theorem toAttr_acts (v : Value) : ν.ActsSame v.toAttr (v.rename ν).toAttr := by
  cases v with
  | label l => exact .pure rfl
  | bool b => exact .pure rfl
  | _ => exact (toText_acts _).bind fun _ => .pure rfl

theorem toCompass_acts (v : Value) : ν.ActsSame v.toCompass (v.rename ν).toCompass := by
  cases v with
  | compass c => exact .pure rfl
  | text s =>
      rw [rename, toCompass]
      cases Compass.ofCode? s with
      | none => exact .throw _
      | some c => exact .pure rfl
  | _ => exact (toText_acts _).bind fun _ => .throw _

end Value

namespace AttrTable

open Renaming (Acts)

theorem convertEntries_acts (es : List (Value × Value)) :
    ν.ActsSame (convertEntries es) (convertEntries (es.map (renameEntry ν))) := by
  have h : ν.Acts (List.map fun x => x) (convertEntries es)
      (convertEntries (es.map (renameEntry ν))) :=
    .mapM fun e _ => (e.2.toAttr_acts).bind fun a => (e.1.toText_acts).bind fun k => .pure rfl
  rw [List.map_id_fun'] at h
  exact h

theorem givenEntries_acts (items : Value) :
    ν.ActsSame (givenEntries items) (givenEntries (items.rename ν)) := by
  unfold givenEntries
  rw [Value.isGiven_rename]
  split
  · exact .pure rfl
  · cases items with
    | map i es =>
        rw [Value.rename, renameEntries_eq_map]
        exact convertEntries_acts es
    | table t => exact .pure rfl
    | _ => exact .throw _

theorem ofGiven_acts (items : Value) (named : List (String × Value)) :
    ν.ActsSame (ofGiven items named)
      (ofGiven (items.rename ν) (named.map (Prod.map id (Value.rename ν)))) := by
  have hnamed : (named.map (Prod.map id (Value.rename ν))).map (fun e => (Value.text e.1, e.2)) =
      (named.map fun e => (Value.text e.1, e.2)).map (renameEntry ν) := by
    rw [List.map_map, List.map_map]
    rfl
  rw [ofGiven, ofGiven, hnamed]
  refine (givenEntries_acts items).bind fun first => ?_
  exact (convertEntries_acts _).bind fun second => .pure rfl

theorem setEntries_acts (t : AttrTable) (es : List (Value × Value)) :
    ν.ActsSame (t.setEntries es) (t.setEntries (es.map (renameEntry ν))) := by
  have hvalues : t.toValues.map (renameEntry ν) = t.toValues := by
    rw [toValues, List.map_map]
    refine List.map_congr_left fun e _ => ?_
    obtain ⟨k, _ | _⟩ := e <;> rfl
  rw [AttrTable.setEntries, AttrTable.setEntries, ← hvalues, Value.setEntries_rename, hvalues]
  exact (convertEntries_acts _).bind fun _ => .pure rfl

theorem mergeGiven_acts (t : AttrTable) (upper : Value) :
    ν.ActsSame (t.mergeGiven upper) (t.mergeGiven (upper.rename ν)) := by
  unfold mergeGiven
  rw [Value.isGiven_rename]
  split
  · exact .pure rfl
  · cases upper with
    | map i es =>
        rw [Value.rename, renameEntries_eq_map]
        exact setEntries_acts t es
    | table u => exact .pure rfl
    | _ => exact .throw _

theorem withAttr_acts (t : AttrTable) (key value : Value) :
    ν.ActsSame (t.withAttr key value) (t.withAttr (key.rename ν) (value.rename ν)) :=
  .checked (Value.isKey_rename ν key) (setEntries_acts t [(key, value)])

end AttrTable

namespace Act

open Renaming (Acts)

/-! ## New elements -/

/-- A new endpoint without a place of its own. -/
theorem pointAt_nowhere_acts (n : Node Value) :
    ν.Acts (NodePoint.rename ν) (make (n.pointAt .nowhere))
      (make ((n.rename ν).pointAt .nowhere)) := by
  have h := Node.pointAt_matches (ν := ν) n .nowhere
  rw [Port.rename_nowhere] at h
  exact .make h

theorem endpoint?_acts (v : Value) :
    ν.Acts (Option.map (Target.rename ν)) (endpoint? v) (endpoint? (v.rename ν)) := by
  cases v with
  | node n => exact (pointAt_nowhere_acts n).bind fun _ => .pure rfl
  | _ => exact .pure rfl

theorem endpoint_acts (v : Value) :
    ν.Acts (Value.rename ν) (endpoint v) (endpoint (v.rename ν)) := by
  refine (endpoint?_acts v).bind fun t => ?_
  cases t with
  | none => exact .throw _
  | some t => exact .pure (Value.ofTarget_rename ν t)

theorem givenPort_acts (v : Value) :
    ν.Acts (Port.rename ν) (givenPort v) (givenPort (v.rename ν)) := by
  cases v with
  | none => exact .pure (Port.rename_nowhere ν).symm
  | port p => exact .pure rfl
  | _ => exact .refuse _ _

theorem newLink_acts (active : Stack) (target sourcePort attrs : Value) :
    ν.Acts (Link.rename ν) (newLink active target sourcePort attrs)
      (newLink (active.map ν.context) (target.rename ν) (sourcePort.rename ν)
        (attrs.rename ν)) := by
  have htarget : (!(target.rename ν).isTarget) = !target.isTarget := by cases target <;> rfl
  unfold newLink
  refine .guarded htarget (.refuse _ target) ?_
  refine (givenPort_acts sourcePort).bind fun port => (endpoint?_acts target).bind fun t => ?_
  cases t with
  | none => exact .refuse _ _
  | some t =>
      refine (AttrTable.ofGiven_acts attrs []).bind fun own => ?_
      exact (Acts.defaults active).bind fun d => .make (Link.make_matches _ _ _)

theorem toLink_acts (active : Stack) (v : Value) :
    ν.Acts (Link.rename ν) (toLink active v) (toLink (active.map ν.context) (v.rename ν)) := by
  have hnew := newLink_acts (ν := ν) active v .none .none
  cases v with
  | link l => exact .pure rfl
  | _ => exact hnew

theorem newNode_acts (active : Stack) (name attrs : Value) :
    ν.Acts (Node.rename ν) (newNode active name attrs)
      (newNode (active.map ν.context) (name.rename ν) (attrs.rename ν)) := by
  refine name.toLabel_acts.bind fun label => ?_
  refine (AttrTable.ofGiven_acts attrs []).bind fun own => ?_
  exact (Acts.defaults active).bind fun d => .make (Node.make_matches _ _)

theorem newGraph_acts (active : Stack) (name : Value) (directed strict : Bool) (attrs : Value) :
    ν.Acts (Graph.rename ν) (newGraph active name directed strict attrs)
      (newGraph (active.map ν.context) (name.rename ν) directed strict (attrs.rename ν)) := by
  refine name.toLabel_acts.bind fun label => ?_
  refine (AttrTable.ofGiven_acts attrs []).bind fun own => ?_
  exact (Acts.defaults active).bind fun d => .make (Graph.make_matches _ _ _ _)

/-! ## Ports -/

theorem givenSide_acts (v : Value) : ν.ActsSame (givenSide v) (givenSide (v.rename ν)) := by
  cases v with
  | none => exact .pure rfl
  | _ => exact (Value.toCompass_acts _).bind fun _ => .pure rfl

theorem newPort_acts (record compass : Value) :
    ν.Acts (Port.rename ν) (newPort record compass)
      (newPort (record.rename ν) (compass.rename ν)) := by
  refine (givenSide_acts compass).bind fun side => ?_
  rw [Value.toRecord_rename]
  exact .make (Port.make_matches _ _)

theorem changePort_acts {f f' : Port Value → Act (Port Value)}
    (hf : ∀ p, ν.Acts (Port.rename ν) (f p) (f' (p.rename ν))) : ∀ v : Value,
    ν.Acts (Value.rename ν) (changePort f v) (changePort f' (v.rename ν))
  | .port p => (hf p).bind fun _ => .pure rfl
  | .node n => by
    have hport := hf .nowhere
    rw [Port.rename_nowhere] at hport
    exact hport.bind fun p => (Acts.make (Node.pointAt_matches n p)).bind fun _ => .pure rfl
  | .point ⟨_, anchor, .port p⟩ =>
    (hf p).bind fun q =>
      (Acts.make (NodePoint.make_matches anchor (.port q))).bind fun _ => .pure rfl
  | .point ⟨_, anchor, .foreign v⟩ => by
    refine (changePort_acts hf v).bind fun place => ?_
    rw [Value.toPlace_rename]
    exact (Acts.make (NodePoint.make_matches anchor place.toPlace)).bind fun _ => .pure rfl
  | .none => .throw _
  | .bool _ => .throw _
  | .int _ => .throw _
  | .float _ _ => .throw _
  | .text _ => .throw _
  | .list _ _ => .throw _
  | .map _ _ => .throw _
  | .label _ => .throw _
  | .table _ => .throw _
  | .compass _ => .throw _
  | .link _ => .throw _
  | .graph _ => .throw _
  | .graphView _ _ _ => .throw _
  | .contextView _ _ _ => .throw _
  | .context _ => .throw _
  | .foreign _ => .throw _

theorem atRecord_acts (v name : Value) :
    ν.Acts (Value.rename ν) (atRecord v name) (atRecord (v.rename ν) (name.rename ν)) := by
  refine changePort_acts (fun p => ?_) v
  rw [Value.toRecord_rename, Port.compass_rename]
  exact .make (Port.make_matches _ _)

theorem atSide_acts (v direction : Value) :
    ν.Acts (Value.rename ν) (atSide v direction)
      (atSide (v.rename ν) (direction.rename ν)) := by
  refine changePort_acts (fun p => (givenSide_acts direction).bind fun side => ?_) v
  rw [Port.record_rename]
  exact .make (Port.make_matches _ _)

/-! ## Attributes -/

theorem changeAttributes_acts (v : Value) {f f' : AttrTable → Act AttrTable}
    (hf : ∀ t, ν.ActsSame (f t) (f' t)) :
    ν.Acts (Value.rename ν) (changeAttributes v f) (changeAttributes (v.rename ν) f') := by
  cases v with
  | node n =>
      obtain ⟨i, name, attrs, links⟩ := n
      exact (hf attrs).bind fun attrs' =>
        (Acts.make (Node.renew_matches ⟨i, name, attrs', links⟩)).bind fun _ => .pure rfl
  | link l =>
      obtain ⟨i, target, sourcePort, attrs⟩ := l
      exact (hf attrs).bind fun attrs' =>
        (Acts.make (Link.renew_matches ⟨i, target, sourcePort, attrs'⟩)).bind fun _ => .pure rfl
  | graph g =>
      cases g
      exact (hf _).bind fun attrs' =>
        (Acts.make (Graph.renew_matches (.mk _ _ _ _ attrs' _ _ _ _ _ _ _ _))).bind fun _ =>
          .pure rfl
  | graphView i owner slot =>
      have htable : ν.ActsSame (f (owner.table slot)) (f' ((owner.rename ν).table slot)) := by
        rw [Graph.table_rename]
        exact hf _
      refine htable.bind fun attrs => ?_
      rw [Graph.withTable_rename]
      exact (Acts.make (Graph.renew_matches _)).bind fun _ => .pure rfl
  | contextView i owner slot =>
      refine Acts.read fun w w' hw => ?_
      rw [hw owner]
      exact (hf _).bind fun attrs => (Acts.setDefaults owner slot attrs).bind fun _ => .pure rfl
  | _ => exact .throw _

theorem setAttr_acts (v key value : Value) :
    ν.Acts (Value.rename ν) (setAttr v key value)
      (setAttr (v.rename ν) (key.rename ν) (value.rename ν)) :=
  changeAttributes_acts v fun t => t.withAttr_acts key value

theorem setAttrs_acts (v items : Value) (named : List (String × Value)) :
    ν.Acts (Value.rename ν) (setAttrs v items named)
      (setAttrs (v.rename ν) (items.rename ν) (named.map (Prod.map id (Value.rename ν)))) :=
  changeAttributes_acts v fun _ => (AttrTable.ofGiven_acts items named).bind fun _ => .pure rfl

/-! ## Graphs -/

theorem changeGraph_acts (g : Graph Value) {f f' : Graph Value → Graph Value}
    (hf : f' (g.rename ν) = (f g).rename ν) :
    ν.Acts (Value.rename ν) (changeGraph g f) (changeGraph (g.rename ν) f') := by
  rw [changeGraph, changeGraph, hf]
  exact (Acts.make (Graph.renew_matches (f g))).bind fun _ => .pure rfl

theorem setDirected_acts (g : Graph Value) (b : Bool) :
    ν.Acts (Value.rename ν) (changeGraph g fun h => { h with directed := b })
      (changeGraph (g.rename ν) fun h => { h with directed := b }) :=
  changeGraph_acts g (by cases g; rfl)

theorem setStrict_acts (g : Graph Value) (b : Bool) :
    ν.Acts (Value.rename ν) (changeGraph g fun h => { h with strict := b })
      (changeGraph (g.rename ν) fun h => { h with strict := b }) :=
  changeGraph_acts g (by cases g; rfl)

theorem setName_acts (g : Graph Value) (l : Label) :
    ν.Acts (Value.rename ν) (changeGraph g fun h => { h with name := l })
      (changeGraph (g.rename ν) fun h => { h with name := l }) :=
  changeGraph_acts g (by cases g; rfl)

theorem addLinks_acts (active : Stack) (v : Value) (targets : List Value) :
    ν.Acts (Value.rename ν) (addLinks active v targets)
      (addLinks (active.map ν.context) (v.rename ν) (targets.map (Value.rename ν))) := by
  have hlinks : ν.Acts (List.map (Link.rename ν)) (targets.mapM (toLink active))
      ((targets.map (Value.rename ν)).mapM (toLink (active.map ν.context))) :=
    .mapM fun t _ => toLink_acts active t
  cases v with
  | node n =>
      exact hlinks.bind fun ls => (Acts.make (Node.addLinks_matches n ls)).bind fun _ => .pure rfl
  | graph g =>
      refine hlinks.bind fun ls => ?_
      have hfind : (ls.map (Link.rename ν)).find? (fun l => !l.sourcePort.isEmpty) =
          (ls.find? fun l => !l.sourcePort.isEmpty).map (Link.rename ν) := by
        rw [List.find?_map]
        refine congrArg (fun p => (ls.find? p).map (Link.rename ν)) (funext fun l => ?_)
        rw [Function.comp_apply, Link.sourcePort_rename, Port.isEmpty_rename]
      rw [hfind]
      cases ls.find? fun l => !l.sourcePort.isEmpty with
      | none => exact (Acts.make (Graph.addLinks_matches g ls)).bind fun _ => .pure rfl
      | some l =>
          show ν.Acts _ _
            (do throw (.portOnGraph (← debug (.link (l.rename ν))) (g.rename ν).debug))
          rw [Graph.debug_rename]
          exact (Acts.debug (.link l)).bind fun shown => .throw _
  | _ => exact .throw _

theorem addNodes_acts (g : Graph Value) (nodes : List Value) :
    ν.Acts (Value.rename ν) (addNodes g nodes)
      (addNodes (g.rename ν) (nodes.map (Value.rename ν))) := by
  refine (Acts.mapM (f := Node.rename ν) fun v _ => ?_).bind fun ns =>
    (Acts.make (Graph.addNodes_matches g ns)).bind fun _ => .pure rfl
  cases v with
  | node n => exact .pure rfl
  | _ => exact .refuse _ _

theorem addSubgraphs_acts (g : Graph Value) (graphs : List Value) :
    ν.Acts (Value.rename ν) (addSubgraphs g graphs)
      (addSubgraphs (g.rename ν) (graphs.map (Value.rename ν))) := by
  refine (Acts.mapM (f := Graph.rename ν) fun v _ => ?_).bind fun ss =>
    (Acts.make (Graph.addSubgraphs_matches g ss)).bind fun _ => .pure rfl
  cases v with
  | graph s => exact .pure rfl
  | _ => exact .refuse _ _

theorem merge_acts (v other : Value) :
    ν.Acts (Value.rename ν) (merge v other) (merge (v.rename ν) (other.rename ν)) := by
  cases v with
  | table t => exact (t.mergeGiven_acts other).bind fun _ => .pure rfl
  | node a =>
      cases other with
      | node b => exact (Acts.make (Node.merge_matches a b)).bind fun _ => .pure rfl
      | _ => exact .throw _
  | graph a =>
      cases other with
      | graph b => exact (Acts.make (Graph.merge_matches a b)).bind fun _ => .pure rfl
      | _ => exact .throw _
  | _ => exact .throw _

/-! ## Chains and nests -/

theorem chainFrom_acts (active : Stack) (stem : String) (k : Nat) (last : Node Value) :
    ν.Acts (Node.rename ν) (chainFrom active stem k last)
      (chainFrom (active.map ν.context) stem k (last.rename ν)) := by
  induction k generalizing last with
  | zero => exact .pure rfl
  | succ k ih =>
      refine (newNode_acts active _ .none).bind fun node => ?_
      refine (toLink_acts active (.node last)).bind fun link => ?_
      exact (Acts.make (Node.addLinks_matches node [link])).bind fun first => ih first

theorem chain_acts (active : Stack) (stem : String) (count : Int) :
    ν.Acts (Node.rename ν) (chain active stem count)
      (chain (active.map ν.context) stem count) :=
  (newNode_acts active _ .none).bind fun last => chainFrom_acts active stem _ last

theorem nestFrom_acts (active : Stack) (stem : String) (k : Nat) (inner : Graph Value) :
    ν.Acts (Graph.rename ν) (nestFrom active stem k inner)
      (nestFrom (active.map ν.context) stem k (inner.rename ν)) := by
  induction k generalizing inner with
  | zero => exact .pure rfl
  | succ k ih =>
      refine (newGraph_acts active _ false false .none).bind fun outer => ?_
      exact (Acts.make (Graph.addSubgraphs_matches outer [inner])).bind fun g => ih g

theorem nest_acts (active : Stack) (stem : String) (count : Int) :
    ν.Acts (Graph.rename ν) (nest active stem count) (nest (active.map ν.context) stem count) := by
  refine (newGraph_acts active _ false false .none).bind fun graph => ?_
  refine (newNode_acts active _ .none).bind fun leaf => ?_
  exact (Acts.make (Graph.addNodes_matches graph [leaf])).bind fun g =>
    nestFrom_acts active stem _ g

end Act

end DotDoc
