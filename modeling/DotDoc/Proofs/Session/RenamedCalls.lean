import DotDoc.Proofs.Session.Calls
import DotDoc.Proofs.Session.RenamedElements

set_option autoImplicit false

/-!
# Calls under other numbers

A call that reads values with other numbers under the same names, where contexts with other numbers
are active, gives what it gives otherwise, under other numbers (`Act.perform_acts`). So does reading
a field of a value (`Value.field_acts`). Fields are gone through by the kind of value, and calls by
their topic.
-/

namespace DotDoc

open Renaming (Acts)

variable {ν : Renaming} {names : Names}

/-! ## Names and arguments -/

namespace Names

/-- The stored values with other numbers. -/
def rename (ν : Renaming) (names : Names) : Names :=
  names.mapEntries id Function.injective_id (Value.rename ν)

theorem get?_rename (n : String) : (names.rename ν).get? n = (names.get? n).map (Value.rename ν) :=
  Table.get?_mapEntries Function.injective_id (Value.rename ν) names n

theorem set_rename (n : String) (v : Value) :
    (names.rename ν).set n (v.rename ν) = Names.rename ν (names.set n v) :=
  Table.set_mapEntries Function.injective_id (Value.rename ν) names n v

theorem read_acts (n : String) :
    ν.Acts (Value.rename ν) (names.read n) ((names.rename ν).read n) := by
  unfold read
  rw [get?_rename]
  cases names.get? n with
  | none => exact .throw _
  | some v => exact .pure rfl

theorem readFor_acts {p : Value → Bool} (hp : ∀ v : Value, p (v.rename ν) = p v) (n : String) :
    ν.Acts (Value.rename ν) (names.readFor p n) ((names.rename ν).readFor p n) :=
  (read_acts n).bind fun v => .checked (hp v) (.pure rfl)

end Names

mutual

/-- An argument describes the same value under other numbers. -/
theorem Expr.eval_acts : ∀ e : Expr,
    ν.Acts (Value.rename ν) (e.eval names) (e.eval (names.rename ν))
  | .none => .pure rfl
  | .bool _ => .pure rfl
  | .int _ => .pure rfl
  | .text _ => .pure rfl
  | .list items => by
    rw [Expr.eval, Expr.eval]
    refine (evalItems_acts items).bind fun vs => Acts.ident.bind fun i => .pure ?_
    rw [Value.rename, renameItems_eq_map]
  | .name n => Names.read_acts n
  | .markup e => by
    rw [Expr.eval, Expr.eval]
    exact (e.eval_acts).bind fun v => v.toText_acts.bind fun s => .pure rfl
  | .number text => by
    rw [Expr.eval, Expr.eval]
    cases Decimal.read? text with
    | none => exact .throw _
    | some x => exact Acts.ident.bind fun i => .pure rfl
  | .map entries => by
    rw [Expr.eval, Expr.eval]
    refine (evalEntries_acts [] entries).bind fun es => Acts.ident.bind fun i => .pure ?_
    rw [Value.rename, renameEntries_eq_map]

theorem evalItems_acts : ∀ es : List Expr,
    ν.Acts (List.map (Value.rename ν)) (evalItems names es) (evalItems (names.rename ν) es)
  | [] => .pure rfl
  | e :: rest => by
    rw [evalItems, evalItems]
    exact e.eval_acts.bind fun v => (evalItems_acts rest).bind fun vs => .pure rfl

theorem evalEntries_acts (done : List (Value × Value)) : ∀ es : List (Expr × Expr),
    ν.Acts (List.map (renameEntry ν)) (evalEntries names done es)
      (evalEntries (names.rename ν) (done.map (renameEntry ν)) es)
  | [] => by
    rw [evalEntries, evalEntries]
    exact .pure rfl
  | (k, e) :: rest => by
    rw [evalEntries, evalEntries]
    refine k.eval_acts.bind fun key => e.eval_acts.bind fun v => ?_
    refine .checked (Value.isKey_rename ν key) ?_
    rw [Value.setEntry_rename]
    exact evalEntries_acts (Value.setEntry key v done) rest

end

theorem evalOr_acts (e : Option Expr) {missing missing' : Value}
    (hmissing : missing' = missing.rename ν) :
    ν.Acts (Value.rename ν) (evalOr names e missing) (evalOr (names.rename ν) e missing') := by
  cases e with
  | none => exact .pure hmissing
  | some e => exact e.eval_acts

theorem evalOr_none_acts (e : Option Expr) :
    ν.Acts (Value.rename ν) (evalOr names e .none) (evalOr (names.rename ν) e .none) :=
  evalOr_acts e rfl

theorem evalOr_blank_acts (e : Option Expr) :
    ν.Acts (Value.rename ν) (evalOr names e (.text "")) (evalOr (names.rename ν) e (.text "")) :=
  evalOr_acts e rfl

theorem port_acts (on : Option String) : ν.Acts (Value.rename ν)
    (on.elim (return .port .nowhere) (names.readFor Value.hasPort))
    (on.elim (return .port .nowhere) ((names.rename ν).readFor Value.hasPort)) := by
  cases on with
  | none => exact .pure (congrArg Value.port (Port.rename_nowhere ν).symm)
  | some n => exact Names.readFor_acts (fun v => by cases v <;> rfl) n

/-- Several arguments that need not be given. -/
theorem mapM_eval_acts (e : Option Expr) :
    ν.Acts (Option.map (Value.rename ν)) (e.mapM fun e => e.eval names)
      (e.mapM fun e => e.eval (names.rename ν)) := by
  cases e with
  | none => exact .pure rfl
  | some e => exact e.eval_acts.bind fun v => .pure rfl

/-- Named values with other numbers. -/
def renameNamed (ν : Renaming) (named : List (String × Value)) : List (String × Value) :=
  named.map (Prod.map id (Value.rename ν))

theorem evalNamed_acts (named : Named) :
    ν.Acts (renameNamed ν) (evalNamed names named) (evalNamed (names.rename ν) named) := by
  have hvalues : ν.Acts (List.map (Prod.map id (Value.rename ν)))
      (named.mapM fun e => do return (e.1, ← e.2.eval names))
      ((named.map id).mapM fun e => do return (e.1, ← e.2.eval (names.rename ν))) :=
    .mapM fun e _ => e.2.eval_acts.bind fun v => .pure rfl
  rw [List.map_id] at hvalues
  refine hvalues.bind fun vs => .pure ?_
  exact congrArg Table.entries (Table.ofList_map Function.injective_id (Value.rename ν) vs)

theorem splitArgument_acts (own : String) (given : Option Value) (named : List (String × Value)) :
    ν.Acts (Prod.map (Option.map (Value.rename ν)) (renameNamed ν)) (splitArgument own given named)
      (splitArgument own (given.map (Value.rename ν)) (renameNamed ν named)) := by
  have hlookup : (renameNamed ν named).lookup own = (named.lookup own).map (Value.rename ν) :=
    Entries.lookup_map Function.injective_id (Value.rename ν) own named
  have hfilter : (renameNamed ν named).filter (fun e => e.1 != own) =
      renameNamed ν (named.filter fun e => e.1 != own) := List.filter_map
  unfold splitArgument
  rw [hlookup]
  cases named.lookup own with
  | none => exact .pure rfl
  | some v =>
      cases given with
      | none =>
          refine .pure ?_
          rw [hfilter]
          rfl
      | some u => exact .throw _

/-- Arguments of which one has a name of its own, and may be given by that name or without it. -/
theorem Renaming.Acts.given (own : String) (item : Option Expr) (named : Named) {α β : Type}
    {f : α → β} {k : Option Value × List (String × Value) → Act α}
    {k' : Option Value × List (String × Value) → Act β}
    (hk : ∀ split, ν.Acts f (k split)
      (k' (split.1.map (Value.rename ν), renameNamed ν split.2))) :
    ν.Acts f
      (do
        let item ← item.mapM fun e => e.eval names
        let named ← evalNamed names named
        k (← splitArgument own item named))
      (do
        let item ← item.mapM fun e => e.eval (names.rename ν)
        let named ← evalNamed (names.rename ν) named
        k' (← splitArgument own item named)) :=
  (mapM_eval_acts item).bind fun v => (evalNamed_acts named).bind fun vs =>
    (splitArgument_acts own v vs).bind hk

theorem refuseNames_acts (kept : List String) (named : List (String × Value)) :
    ν.ActsSame (refuseNames kept named) (refuseNames kept (renameNamed ν named)) := by
  have hany : (renameNamed ν named).any (fun e => kept.contains e.1) =
      named.any fun e => kept.contains e.1 := by
    rw [renameNamed, List.any_map]
    rfl
  unfold refuseNames
  rw [hany]
  split
  · exact .throw _
  · exact .pure rfl

theorem mapOfNamed_acts (named : List (String × Value)) :
    ν.Acts (Value.rename ν) (mapOfNamed named) (mapOfNamed (renameNamed ν named)) := by
  refine Acts.ident.bind fun i => .pure ?_
  rw [Value.rename, renameEntries_eq_map, renameNamed, List.map_map, List.map_map]
  rfl

/-! ## Items and fields -/

theorem Value.pick_acts (items : List Value) (position : Int) :
    ν.Acts (Value.rename ν) (pick items position) (pick (items.map (Value.rename ν)) position) := by
  unfold pick
  rw [List.length_map]
  cases indexAt? items.length position with
  | none => exact .throw _
  | some i =>
      rw [Option.bind_some, Option.bind_some, List.getElem?_map]
      cases items[i]? with
      | none => exact .throw _
      | some v => exact .pure rfl

theorem Value.position?_rename (v : Value) : (v.rename ν).position? = v.position? := by
  cases v <;> rfl

theorem Value.ofAttr_rename (a : AttrValue) : (ofAttr a).rename ν = ofAttr a := by cases a <;> rfl

theorem Value.item_acts (v key : Value) :
    ν.Acts (Value.rename ν) (v.item key) ((v.rename ν).item (key.rename ν)) := by
  have hkey : (!(key.rename ν).isKey) = !key.isKey := congrArg (! ·) (key.isKey_rename ν)
  cases v with
  | table t =>
      unfold item
      dsimp only [rename]
      refine .guarded hkey (.throw _) ?_
      cases key with
      | text k =>
          show ν.Acts _ ((t.get? k).elim _ _) ((t.get? k).elim _ _)
          cases t.get? k with
          | none => exact .throw _
          | some a => exact .pure (ofAttr_rename a).symm
      | _ => exact .throw _
  | map i es =>
      rw [rename, item, item]
      refine .guarded hkey (.throw _) ?_
      have hfind : (renameEntries ν es).find? (fun e => same e.1 (key.rename ν)) =
          (es.find? fun e => same e.1 key).map (renameEntry ν) := by
        rw [renameEntries_eq_map, List.find?_map]
        exact congrArg (fun p => (es.find? p).map (renameEntry ν)) (funext fun e =>
          same_rename ν e.1 key)
      rw [hfind]
      cases es.find? fun e => same e.1 key with
      | none => exact .throw _
      | some e => exact .pure rfl
  | list i items =>
      show ν.Acts _ (key.position?.elim _ _) ((key.rename ν).position?.elim _ _)
      rw [position?_rename]
      cases key.position? with
      | none => exact .throw _
      | some k =>
          show ν.Acts _ (pick items k) (pick (renameItems ν items) k)
          rw [renameItems_eq_map]
          exact pick_acts items k
  | text s =>
      show ν.Acts _ (key.position?.elim _ _) ((key.rename ν).position?.elim _ _)
      rw [position?_rename]
      cases key.position? with
      | none => exact .throw _
      | some k =>
          have h := pick_acts (ν := ν) (s.toList.map fun c => text (String.singleton c)) k
          rw [List.map_map] at h
          exact h
  | _ => exact .throw _

theorem Value.holds_acts (v key : Value) :
    ν.ActsSame (v.holds key) ((v.rename ν).holds (key.rename ν)) := by
  have hkey : (!(key.rename ν).isKey) = !key.isKey := congrArg (! ·) (key.isKey_rename ν)
  cases v with
  | table t =>
      unfold holds
      dsimp only [rename]
      refine .guarded hkey (.throw _) ?_
      cases key <;> exact .pure rfl
  | map i es =>
      rw [rename, holds, holds]
      refine .guarded hkey (.throw _) (.pure ?_)
      rw [renameEntries_eq_map, List.any_map]
      exact congrArg es.any (funext fun e => same_rename ν e.1 key)
  | list i items =>
      refine .pure ?_
      rw [renameItems_eq_map, List.any_map]
      exact congrArg items.any (funext fun e => same_rename ν e key)
  | text s =>
      cases key with
      | text part => exact .pure rfl
      | _ => exact .throw _
  | _ => exact .throw _

theorem Value.members?_rename (v : Value) (f : Field) :
    (v.rename ν).members? f = (v.members? f).map (List.map (Value.rename ν)) := by
  cases v with
  | node n =>
      cases f with
      | links =>
          show some ((n.rename ν).links.map Value.link) =
            some ((n.links.map Value.link).map (Value.rename ν))
          rw [Node.links_rename, List.map_map, List.map_map]
          rfl
      | _ => rfl
  | graph g =>
      cases f with
      | nodes =>
          show some ((g.rename ν).nodes.map Value.node) =
            some ((g.nodes.map Value.node).map (Value.rename ν))
          rw [Graph.nodes_rename, List.map_map, List.map_map]
          rfl
      | subgraphs =>
          show some ((g.rename ν).subgraphs.map Value.graph) =
            some ((g.subgraphs.map Value.graph).map (Value.rename ν))
          rw [Graph.subgraphs_rename, List.map_map, List.map_map]
          rfl
      | links =>
          show some ((g.rename ν).links.map Value.link) =
            some ((g.links.map Value.link).map (Value.rename ν))
          rw [Graph.links_rename, List.map_map, List.map_map]
          rfl
      | _ => rfl
  | _ => rfl

theorem Act.viewGraph_acts (g : Graph Value) (slot : GraphTable) :
    ν.Acts (Value.rename ν) (viewGraph g slot) (viewGraph (g.rename ν) slot) :=
  Acts.ident.bind fun _ => .pure rfl

theorem Act.viewContext_acts (c : ContextId) (slot : ElementKind) :
    ν.Acts (Value.rename ν) (viewContext c slot) (viewContext (ν.context c) slot) :=
  Acts.ident.bind fun _ => .pure rfl

theorem Value.current_rename (active : Stack) :
    (active.map ν.context).head?.elim none context =
      (active.head?.elim none context).rename ν := by
  cases active <;> rfl

namespace Value

/-! ### Operations that are looked up on any value -/

theorem attrs_acts (active : Stack) (v : Value) : ν.Acts (Value.rename ν) (v.field active .attrs)
    ((v.rename ν).field (active.map ν.context) .attrs) := by
  have h := Act.setAttrs_acts (ν := ν) v .none []
  cases v <;> exact h

theorem link_acts (active : Stack) (v : Value) : ν.Acts (Value.rename ν) (v.field active .link)
    ((v.rename ν).field (active.map ν.context) .link) := by
  have h := Act.addLinks_acts (ν := ν) active v []
  cases v <;> exact h

theorem endpoint_acts (active : Stack) (v : Value) :
    ν.Acts (Value.rename ν) (v.field active .endpoint)
      ((v.rename ν).field (active.map ν.context) .endpoint) := by
  have h := Act.endpoint_acts (ν := ν) v
  cases v <;> exact h

/-! ### Fields of each kind of value -/

theorem field_acts_port (active : Stack) (p : Port Value) (f : Field) :
    ν.Acts (Value.rename ν) ((Value.port p).field active f)
      (((Value.port p).rename ν).field (active.map ν.context) f) := by
  cases f with
  | recordName => exact .pure (by
      rw [Port.record_rename, ofRecord_rename])
  | direction => exact .pure (by
      rw [Port.compass_rename]
      cases p.compass <;> rfl)
  | isEmpty => exact .pure (congrArg Value.bool (Port.isEmpty_rename ν p))
  | _ => exact .throw _

theorem field_acts_point (active : Stack) (p : NodePoint Value) (f : Field) :
    ν.Acts (Value.rename ν) ((Value.point p).field active f)
      (((Value.point p).rename ν).field (active.map ν.context) f) := by
  cases f with
  | node => exact .pure (by
      rw [NodePoint.anchor_rename, ofAnchor_rename])
  | port => exact .pure (by
      rw [NodePoint.place_rename, ofPlace_rename])
  | attrs => exact attrs_acts active _
  | link => exact link_acts active _
  | endpoint => exact endpoint_acts active _
  | _ => exact .throw _

theorem field_acts_link (active : Stack) (l : Link Value) (f : Field) :
    ν.Acts (Value.rename ν) ((Value.link l).field active f)
      (((Value.link l).rename ν).field (active.map ν.context) f) := by
  cases f with
  | target => exact .pure (by
      rw [Link.target_rename, ofTarget_rename])
  | sourcePort => exact .pure (congrArg Value.port (Link.sourcePort_rename ν l))
  | attributes => exact .pure (congrArg Value.table (Link.attrs_rename ν l))
  | attrs => exact attrs_acts active _
  | _ => exact .throw _

theorem field_acts_node (active : Stack) (n : Node Value) (f : Field) :
    ν.Acts (Value.rename ν) ((Value.node n).field active f)
      (((Value.node n).rename ν).field (active.map ν.context) f) := by
  cases f with
  | name => exact .pure (congrArg Value.label (Node.name_rename ν n))
  | attributes => exact .pure (congrArg Value.table (Node.attrs_rename ν n))
  | port =>
      exact (Act.newPort_acts .none .none).bind fun p =>
        (Acts.make (Node.pointAt_matches n p)).bind fun _ => .pure rfl
  | attrs => exact attrs_acts active _
  | link => exact link_acts active _
  | endpoint => exact endpoint_acts active _
  | _ => exact .throw _

theorem field_acts_graph (active : Stack) (g : Graph Value) (f : Field) :
    ν.Acts (Value.rename ν) ((Value.graph g).field active f)
      (((Value.graph g).rename ν).field (active.map ν.context) f) := by
  cases f with
  | name => exact .pure (congrArg Value.label (Graph.name_rename ν g))
  | attributes => exact .pure (congrArg Value.table (Graph.attrs_rename ν g))
  | graphAttrs => exact .pure (congrArg Value.table (Graph.graphAttrs_rename ν g))
  | nodeAttrs => exact .pure (congrArg Value.table (Graph.nodeAttrs_rename ν g))
  | linkAttrs => exact .pure (congrArg Value.table (Graph.linkAttrs_rename ν g))
  | isDirected => exact .pure (congrArg Value.bool (Graph.directed_rename ν g))
  | isStrict => exact .pure (congrArg Value.bool (Graph.strict_rename ν g))
  | view slot => exact Act.viewGraph_acts g slot
  | directed => exact Act.setDirected_acts g true
  | undirected => exact Act.setDirected_acts g false
  | strict => exact Act.setStrict_acts g true
  | node => exact Act.addNodes_acts g []
  | graph => exact Act.addSubgraphs_acts g []
  | attrs => exact attrs_acts active _
  | link => exact link_acts active _
  | endpoint => exact endpoint_acts active _
  | _ => exact .throw _

theorem field_acts_context (active : Stack) (c : ContextId) (f : Field) :
    ν.Acts (Value.rename ν) ((Value.context c).field active f)
      (((Value.context c).rename ν).field (active.map ν.context) f) := by
  cases f with
  | graphDefaults =>
      exact Acts.read fun _ _ hw => .pure (congrArg (fun d : Defaults => table d.graphs) (hw c))
  | nodeDefaults =>
      exact Acts.read fun _ _ hw => .pure (congrArg (fun d : Defaults => table d.nodes) (hw c))
  | linkDefaults =>
      exact Acts.read fun _ _ hw => .pure (congrArg (fun d : Defaults => table d.links) (hw c))
  | graphs => exact Act.viewContext_acts c .graph
  | nodes => exact Act.viewContext_acts c .node
  | links => exact Act.viewContext_acts c .link
  | current => exact .pure (current_rename active)
  | _ => exact .throw _

/-- **What a field of a value holds, or what its operation gives, is the same under other
numbers.** -/
theorem field_acts (active : Stack) (v : Value) (f : Field) :
    ν.Acts (Value.rename ν) (v.field active f) ((v.rename ν).field (active.map ν.context) f) := by
  cases v with
  | label l =>
      cases f with
      | value => exact .pure rfl
      | html => exact .pure rfl
      | anonymous => exact .pure rfl
      | _ => exact .throw _
  | table t =>
      cases f with
      | isEmpty => exact .pure rfl
      | _ => exact .throw _
  | compass c =>
      cases f with
      | name => exact .pure rfl
      | value => exact .pure rfl
      | _ => exact .throw _
  | port p => exact field_acts_port active p f
  | point p => exact field_acts_point active p f
  | link l => exact field_acts_link active l f
  | node n => exact field_acts_node active n f
  | graph g => exact field_acts_graph active g f
  | graphView i owner slot =>
      cases f with
      | attributes => exact .pure (congrArg Value.table (Graph.table_rename ν owner slot))
      | attrs => exact attrs_acts active _
      | _ => exact .throw _
  | contextView i owner slot =>
      cases f with
      | attributes =>
          exact Acts.read fun _ _ hw =>
            .pure (congrArg (fun d : Defaults => table (d.get slot)) (hw owner))
      | attrs => exact attrs_acts active _
      | _ => exact .throw _
  | context c => exact field_acts_context active c f
  | foreign t =>
      cases f with
      | name => exact .pure rfl
      | attrs => exact attrs_acts active _
      | link => exact link_acts active _
      | endpoint => exact endpoint_acts active _
      | _ => exact .throw _
  | _ => cases f <;> exact .throw _

end Value

/-! ## Carrying out -/

theorem Value.document_acts (v : Value) (d : Dot.Dialect) :
    ν.ActsSame (v.document d) ((v.rename ν).document d) := by
  cases v with
  | graph g => exact .serialize g d
  | _ => exact .refuse _ _

/-- The result of a call with other numbers. -/
def Answer.rename (ν : Renaming) : Answer → Answer
  | .value v => .value (v.rename ν)
  | .item v => .item (v.rename ν)
  | .defaults d depth => .defaults d depth
  | .source text filename format engine => .source text filename format engine

theorem Answer.stored_rename (a : Answer) : (a.rename ν).stored = a.stored.rename ν := by
  cases a <;> rfl

theorem Answer.report_rename {cs cs' : Contexts} (h : ν.Fits cs cs') (a : Answer) :
    (a.rename ν).report cs' = a.report cs := by
  cases a with
  | value v => exact v.report_rename h
  | item v =>
      have hv := v.report_rename h
      cases v <;> first | rfl | exact hv
  | _ => rfl

/-- An argument that may be missing, where plain data stand for it. -/
theorem Value.getD_rename {missing : Value} (o : Option Value)
    (h : missing = missing.rename ν) :
    (o.map (Value.rename ν)).getD missing = (o.getD missing).rename ν := by
  cases o with
  | none => exact h
  | some v => rfl

/-! ### Calls about each topic -/

namespace Act

theorem perform_acts_tables (active : Stack) {c : Call} (hc : c.topic = .tables) :
    ν.Acts (Answer.rename ν) (perform active names c)
      (perform (active.map ν.context) (names.rename ν) c) := by
  cases c with
  | label v markup =>
      exact (evalOr_blank_acts v).bind fun u => u.toText_acts.bind fun _ => .pure rfl
  | labelOf v => exact v.eval_acts.bind fun u => u.toLabel_acts.bind fun _ => .pure rfl
  | markup text => exact text.eval_acts.bind fun u => u.toText_acts.bind fun _ => .pure rfl
  | attributes items named =>
      refine .given "items" items named fun split => ?_
      refine (refuseNames_acts ["self"] split.2).bind fun _ => ?_
      rw [Value.getD_rename split.1 rfl]
      exact (AttrTable.ofGiven_acts _ _).bind fun _ => .pure rfl
  | withAttr on key v =>
      refine (Names.readFor_acts (fun v => by cases v <;> rfl) on).bind fun owner => ?_
      cases owner with
      | table t =>
          exact key.eval_acts.bind fun k => v.eval_acts.bind fun u =>
            (t.withAttr_acts k u).bind fun _ => .pure rfl
      | _ => exact .throw _
  | merge on other =>
      refine (Names.readFor_acts (fun v => by cases v <;> rfl) on).bind fun v => ?_
      exact other.eval_acts.bind fun o => (merge_acts v o).bind fun _ => .pure rfl
  | lookup on key =>
      exact (Names.read_acts on).bind fun v => key.eval_acts.bind fun k =>
        (v.item_acts k).bind fun _ => .pure rfl
  | contains on key =>
      exact key.eval_acts.bind fun k => (Names.read_acts on).bind fun v =>
        (v.holds_acts k).bind fun _ => .pure rfl
  | abstractAttr key v =>
      exact key.eval_acts.bind fun k => v.eval_acts.bind fun u =>
        (AttrTable.withAttr_acts ∅ k u).bind fun _ => .throw _
  | _ => cases hc

theorem perform_acts_ports (active : Stack) {c : Call} (hc : c.topic = .ports) :
    ν.Acts (Answer.rename ν) (perform active names c)
      (perform (active.map ν.context) (names.rename ν) c) := by
  cases c with
  | compassOf direction =>
      exact direction.eval_acts.bind fun u => u.toCompass_acts.bind fun _ => .pure rfl
  | port record compass =>
      exact (evalOr_none_acts record).bind fun r => (evalOr_none_acts compass).bind fun c =>
        (newPort_acts r c).bind fun _ => .pure rfl
  | record on name =>
      exact (port_acts on).bind fun v => name.eval_acts.bind fun n =>
        (atRecord_acts v n).bind fun _ => .pure rfl
  | compass on direction =>
      exact (port_acts on).bind fun v => direction.eval_acts.bind fun d =>
        (atSide_acts v d).bind fun _ => .pure rfl
  | nodePort on record compass =>
      refine (Names.readFor_acts (fun v => by cases v <;> rfl) on).bind fun v => ?_
      refine (evalOr_none_acts record).bind fun r => (evalOr_none_acts compass).bind fun c => ?_
      cases v with
      | node n =>
          exact (newPort_acts r c).bind fun p =>
            (Acts.make (Node.pointAt_matches n p)).bind fun _ => .pure rfl
      | _ => exact .throw _
  | _ => cases hc

theorem perform_acts_elements (active : Stack) {c : Call} (hc : c.topic = .elements) :
    ν.Acts (Answer.rename ν) (perform active names c)
      (perform (active.map ν.context) (names.rename ν) c) := by
  cases c with
  | node name named =>
      refine .given "name" name named fun split => ?_
      refine (mapOfNamed_acts split.2).bind fun attrs => ?_
      rw [Value.getD_rename split.1 rfl]
      exact (newNode_acts active _ attrs).bind fun _ => .pure rfl
  | graph name named =>
      refine .given "name" name named fun split => ?_
      refine (mapOfNamed_acts split.2).bind fun attrs => ?_
      rw [Value.getD_rename split.1 rfl]
      exact (newGraph_acts active _ false false attrs).bind fun _ => .pure rfl
  | newNode name attrs =>
      exact (evalOr_blank_acts name).bind fun n => (evalOr_none_acts attrs).bind fun a =>
        (newNode_acts active n a).bind fun _ => .pure rfl
  | newGraph name directed strict attrs =>
      exact (evalOr_blank_acts name).bind fun n => (evalOr_none_acts attrs).bind fun a =>
        (newGraph_acts active n directed strict a).bind fun _ => .pure rfl
  | chain stem count => exact (chain_acts active stem count).bind fun _ => .pure rfl
  | nest stem count => exact (nest_acts active stem count).bind fun _ => .pure rfl
  | _ => cases hc

theorem perform_acts_links (active : Stack) {c : Call} (hc : c.topic = .links) :
    ν.Acts (Answer.rename ν) (perform active names c)
      (perform (active.map ν.context) (names.rename ν) c) := by
  cases c with
  | linkTo target attrs =>
      exact target.eval_acts.bind fun t => (evalOr_none_acts attrs).bind fun a =>
        (newLink_acts active t .none a).bind fun _ => .pure rfl
  | between source target attrs =>
      exact source.eval_acts.bind fun s => target.eval_acts.bind fun t =>
        (evalOr_none_acts attrs).bind fun a => (newLink_acts active t s a).bind fun _ => .pure rfl
  | newLink target sourcePort attrs =>
      exact target.eval_acts.bind fun t => (evalOr_none_acts sourcePort).bind fun s =>
        (evalOr_none_acts attrs).bind fun a => (newLink_acts active t s a).bind fun _ => .pure rfl
  | linkOf target =>
      exact target.eval_acts.bind fun t => (toLink_acts active t).bind fun _ => .pure rfl
  | point anchor place =>
      refine anchor.eval_acts.bind fun a => (evalOr_acts place
        (congrArg Value.port (Port.rename_nowhere ν).symm)).bind fun p => ?_
      rw [Value.toAnchor_rename, Value.toPlace_rename]
      exact (Acts.make (NodePoint.make_matches _ _)).bind fun _ => .pure rfl
  | foreignTarget name => exact Acts.ident.bind fun _ => .pure rfl
  | abstractTarget => exact .throw _
  | _ => cases hc

theorem perform_acts_members (active : Stack) {c : Call} (hc : c.topic = .members) :
    ν.Acts (Answer.rename ν) (perform active names c)
      (perform (active.map ν.context) (names.rename ν) c) := by
  cases c with
  | link on targets =>
      refine (Names.readFor_acts (fun v => by cases v <;> rfl) on).bind fun v => ?_
      exact (evalItems_acts targets).bind fun ts =>
        (addLinks_acts active v ts).bind fun _ => .pure rfl
  | addNodes on nodes =>
      refine (Names.readFor_acts (fun v => by cases v <;> rfl) on).bind fun v => ?_
      refine (evalItems_acts nodes).bind fun ns => ?_
      cases v with
      | graph g => exact (addNodes_acts g ns).bind fun _ => .pure rfl
      | _ => exact .throw _
  | addGraphs on graphs =>
      refine (Names.read_acts on).bind fun v => ?_
      cases v with
      | graph g =>
          exact (evalItems_acts graphs).bind fun ss =>
            (addSubgraphs_acts g ss).bind fun _ => .pure rfl
      | _ => exact .throw _
  | endpoint on =>
      exact (Names.read_acts on).bind fun v => (endpoint_acts v).bind fun _ => .pure rfl
  | _ => cases hc

theorem perform_acts_updates (active : Stack) {c : Call} (hc : c.topic = .updates) :
    ν.Acts (Answer.rename ν) (perform active names c)
      (perform (active.map ν.context) (names.rename ν) c) := by
  cases c with
  | attr on key v =>
      refine (Names.readFor_acts (fun v => by cases v <;> rfl) on).bind fun owner => ?_
      exact key.eval_acts.bind fun k => v.eval_acts.bind fun u =>
        (setAttr_acts owner k u).bind fun _ => .pure rfl
  | attrs on items named =>
      refine (Names.readFor_acts (fun v => by cases v <;> rfl) on).bind fun owner => ?_
      refine .given "attrs" items named fun split => ?_
      refine (refuseNames_acts ["self", "items"] split.2).bind fun _ => ?_
      rw [Value.getD_rename split.1 rfl]
      exact (setAttrs_acts owner _ split.2).bind fun _ => .pure rfl
  | directed on b =>
      refine (Names.read_acts on).bind fun v => ?_
      cases v with
      | graph g => exact (setDirected_acts g b).bind fun _ => .pure rfl
      | _ => exact .throw _
  | strict on b =>
      refine (Names.read_acts on).bind fun v => ?_
      cases v with
      | graph g => exact (setStrict_acts g b).bind fun _ => .pure rfl
      | _ => exact .throw _
  | named on name =>
      refine (Names.read_acts on).bind fun v => ?_
      cases v with
      | graph g =>
          exact name.eval_acts.bind fun n => n.toLabel_acts.bind fun l =>
            (setName_acts g l).bind fun _ => .pure rfl
      | _ => exact .throw _
  | view on view =>
      refine (Names.read_acts on).bind fun v => ?_
      cases view with
      | ofGraph slot =>
          cases v with
          | graph g => exact (viewGraph_acts g slot).bind fun _ => .pure rfl
          | _ => exact .throw _
      | ofContext slot =>
          cases v with
          | context c => exact (viewContext_acts c slot).bind fun _ => .pure rfl
          | _ => exact .throw _
      | unknown => cases v <;> exact .throw _
  | _ => cases hc

theorem perform_acts_contexts (active : Stack) {c : Call} (hc : c.topic = .contexts) :
    ν.Acts (Answer.rename ν) (perform active names c)
      (perform (active.map ν.context) (names.rename ν) c) := by
  cases c with
  | newContext => exact Acts.newContext.bind fun _ => .pure rfl
  | current => exact .pure (congrArg Answer.value (Value.current_rename active))
  | defaults =>
      refine (Acts.defaults active).bind fun d => .pure ?_
      rw [Stack.depth, List.length_map]
      rfl
  | _ => cases hc

theorem perform_acts_inspection (active : Stack) {c : Call} (hc : c.topic = .inspection) :
    ν.Acts (Answer.rename ν) (perform active names c)
      (perform (active.map ν.context) (names.rename ν) c) := by
  cases c with
  | get on => exact (Names.read_acts on).bind fun _ => .pure rfl
  | field on f index =>
      refine (Names.read_acts on).bind fun v => ?_
      rw [Value.members?_rename]
      cases v.members? f with
      | none => exact (v.field_acts active f).bind fun _ => .pure rfl
      | some members =>
          cases index with
          | some i => exact (Value.pick_acts members i).bind fun _ => .pure rfl
          | none =>
              refine Acts.ident.bind fun i => .pure ?_
              rw [Answer.rename, Value.rename, renameItems_eq_map]
  | debug v => exact v.eval_acts.bind fun u => (Acts.debug u).bind fun _ => .pure rfl
  | text v => exact v.eval_acts.bind fun u => u.toText_acts.bind fun _ => .pure rfl
  | same a b =>
      exact a.eval_acts.bind fun x => b.eval_acts.bind fun y =>
        .pure (congrArg (Answer.value <| Value.bool ·) (Value.identical_rename ν x y))
  | equal a b =>
      exact a.eval_acts.bind fun x => b.eval_acts.bind fun y =>
        .pure (congrArg (Answer.value <| Value.bool ·) (Value.equal_rename ν x y))
  | distinct items =>
      refine (evalItems_acts items).bind fun vs => ?_
      have hkeys : (vs.map (Value.rename ν)).all Value.isKey = vs.all Value.isKey := by
        rw [List.all_map]
        exact congrArg vs.all (funext fun v => Value.isKey_rename ν v)
      refine .checked hkeys (.pure ?_)
      rw [Value.countDistinct_rename]
      rfl
  | _ => cases hc

theorem perform_acts_output (active : Stack) {c : Call} (hc : c.topic = .output) :
    ν.Acts (Answer.rename ν) (perform active names c)
      (perform (active.map ν.context) (names.rename ν) c) := by
  cases c with
  | serialize graph =>
      exact graph.eval_acts.bind fun v => (v.document_acts .standard).bind fun _ => .pure rfl
  | serializeTwice on =>
      refine (Names.read_acts on).bind fun v => (v.document_acts .standard).bind fun first => ?_
      exact (v.document_acts .standard).bind fun second => Acts.ident.bind fun i => .pure rfl
  | serializeWith on dialect =>
      exact (Names.read_acts on).bind fun v => (v.document_acts dialect).bind fun _ => .pure rfl
  | source on filename format engine =>
      exact (Names.read_acts on).bind fun v => (v.document_acts .standard).bind fun _ => .pure rfl
  | _ => cases hc

/-- **A call gives what it gives, under other numbers.** -/
theorem perform_acts (active : Stack) (c : Call) :
    ν.Acts (Answer.rename ν) (perform active names c)
      (perform (active.map ν.context) (names.rename ν) c) := by
  cases hc : c.topic with
  | tables => exact perform_acts_tables active hc
  | ports => exact perform_acts_ports active hc
  | elements => exact perform_acts_elements active hc
  | links => exact perform_acts_links active hc
  | members => exact perform_acts_members active hc
  | updates => exact perform_acts_updates active hc
  | contexts => exact perform_acts_contexts active hc
  | inspection => exact perform_acts_inspection active hc
  | output => exact perform_acts_output active hc

end Act

end DotDoc
