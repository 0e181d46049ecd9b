import DotDoc.Session.Equality
import DotDoc.Session.Report
import Mathlib.Logic.Function.Basic

set_option autoImplicit false

/-!
# Values under other numbers

The identity numbers of elements, and the numbers of contexts, can be replaced by others in a value
as a whole (`Value.rename`). If no two numbers are replaced by the same one, nothing comes to be the
same that was not (`Value.identical_rename`, `Value.equal_rename`), and what is shown and reported
of a value stays (`Value.debug_rename`, `Value.report_rename`), provided that the contexts hold
under their other numbers what they held (`Renaming.Fits`).
-/

namespace DotDoc

/-! ## Tables with other keys and values -/

section Tables

variable {κ κ' α β : Type}

/-- A table with its keys and values replaced, different keys by different ones. -/
def Table.mapEntries (f : κ → κ') (hf : Function.Injective f) (g : α → β) (t : Table κ α) :
    Table κ' β where
  entries := t.entries.map (Prod.map f g)
  nodup := by
    rw [List.map_map, show Prod.fst ∘ Prod.map f g = f ∘ Prod.fst from rfl, ← List.map_map]
    exact List.Pairwise.map f (fun _ _ h h' => h (hf h')) t.nodup

variable [DecidableEq κ] [DecidableEq κ'] {f : κ → κ'} (hf : Function.Injective f) (g : α → β)

include hf in
theorem Entries.set_map (k : κ) (v : α) (es : List (κ × α)) :
    set (f k) (g v) (es.map (Prod.map f g)) = (set k v es).map (Prod.map f g) := by
  induction es with
  | nil => rfl
  | cons e rest ih =>
      rw [List.map_cons]
      show (if f e.1 = f k then _ else _) = _
      rw [set, ih]
      by_cases h : e.1 = k
      · rw [if_pos h, if_pos (congrArg f h), List.map_cons]
        rfl
      · rw [if_neg h, if_neg fun h' => h (hf h'), List.map_cons]
        rfl

include hf in
theorem Entries.lookup_map (k : κ) (es : List (κ × α)) :
    (es.map (Prod.map f g)).lookup (f k) = (es.lookup k).map g := by
  induction es with
  | nil => rfl
  | cons e rest ih =>
      obtain ⟨k', v⟩ := e
      by_cases h : k = k'
      · rw [h, List.map_cons, Prod.map_apply, List.lookup_cons_self, List.lookup_cons_self]
        rfl
      · have h1 : (f k == f k') = false := by simpa using fun h' => h (hf h')
        have h2 : (k == k') = false := by simpa using h
        rw [List.map_cons, Prod.map_apply, List.lookup_cons, List.lookup_cons, h1, h2]
        exact ih

namespace Table

variable (t : Table κ α)

theorem get?_mapEntries (k : κ) : (t.mapEntries f hf g).get? (f k) = (t.get? k).map g :=
  Entries.lookup_map hf g k t.entries

theorem set_mapEntries (k : κ) (v : α) :
    (t.mapEntries f hf g).set (f k) (g v) = (t.set k v).mapEntries f hf g :=
  Table.ext (Entries.set_map hf g k v t.entries)

theorem ofList_map (es : List (κ × α)) :
    ofList (es.map (Prod.map f g)) = (ofList es).mapEntries f hf g := by
  have hall : ∀ t : Table κ α, (t.mapEntries f hf g).setAll (es.map (Prod.map f g)) =
      (t.setAll es).mapEntries f hf g := by
    induction es with
    | nil => exact fun _ => rfl
    | cons e rest ih =>
        intro t
        rw [List.map_cons, setAll_cons, setAll_cons, ← ih]
        exact congrArg (fun u => setAll u _) (set_mapEntries hf g t e.1 e.2)
  exact hall empty

end Table

end Tables

/-! ## Other numbers -/

/-- Other numbers for elements and for contexts. The number zero is no element's, so it is kept. -/
structure Renaming where
  ident : Nat → Nat
  context : ContextId → ContextId
  ident_injective : Function.Injective ident
  context_injective : Function.Injective context
  ident_zero : ident 0 = 0

namespace Renaming

variable (ν : Renaming)

theorem beq_ident (i j : Nat) : (ν.ident i == ν.ident j) = (i == j) := by
  rw [Bool.eq_iff_iff, beq_iff_eq, beq_iff_eq, ν.ident_injective.eq_iff]

theorem beq_context (c d : ContextId) : (ν.context c == ν.context d) = (c == d) := by
  rw [Bool.eq_iff_iff, beq_iff_eq, beq_iff_eq, ν.context_injective.eq_iff]

/-- Under their other numbers the contexts hold in the second table what they hold in the first. -/
def Fits (cs cs' : Contexts) : Prop := ∀ c, cs'.defaults (ν.context c) = cs.defaults c

/-- What the contexts hold can be held under other numbers. -/
theorem exists_fits (cs : Contexts) : ∃ cs', ν.Fits cs cs' :=
  ⟨cs.mapEntries ν.context ν.context_injective id, fun c => by
    rw [Contexts.defaults, Table.get?_mapEntries, Option.map_id]
    rfl⟩

end Renaming

/-! ## Replacing numbers -/

/-- A foreign target with another number. -/
def ForeignTarget.rename (ν : Renaming) (t : ForeignTarget) : ForeignTarget :=
  ⟨ν.ident t.ident, t.name⟩

mutual

/-- The value with other numbers throughout. -/
def Value.rename (ν : Renaming) : Value → Value
  | .none => .none
  | .bool b => .bool b
  | .int i => .int i
  | .float i x => .float (ν.ident i) x
  | .text s => .text s
  | .list i items => .list (ν.ident i) (renameItems ν items)
  | .map i entries => .map (ν.ident i) (renameEntries ν entries)
  | .label l => .label l
  | .table t => .table t
  | .compass c => .compass c
  | .port p => .port (p.rename ν)
  | .node n => .node (n.rename ν)
  | .point p => .point (p.rename ν)
  | .link l => .link (l.rename ν)
  | .graph g => .graph (g.rename ν)
  | .graphView i owner slot => .graphView (ν.ident i) (owner.rename ν) slot
  | .contextView i owner slot => .contextView (ν.ident i) (ν.context owner) slot
  | .context c => .context (ν.context c)
  | .foreign t => .foreign (t.rename ν)

/-- The items of a list. -/
def renameItems (ν : Renaming) : List Value → List Value
  | [] => []
  | v :: rest => v.rename ν :: renameItems ν rest

/-- The entries of a map. -/
def renameEntries (ν : Renaming) : List (Value × Value) → List (Value × Value)
  | [] => []
  | (k, v) :: rest => (k.rename ν, v.rename ν) :: renameEntries ν rest

def RecordName.rename (ν : Renaming) : RecordName Value → RecordName Value
  | .absent => .absent
  | .text s => .text s
  | .label l => .label l
  | .foreign v => .foreign (v.rename ν)

def Port.rename (ν : Renaming) : Port Value → Port Value
  | ⟨i, record, compass⟩ => ⟨ν.ident i, record.rename ν, compass⟩

def Place.rename (ν : Renaming) : Place Value → Place Value
  | .port p => .port (p.rename ν)
  | .foreign v => .foreign (v.rename ν)

def Node.rename (ν : Renaming) : Node Value → Node Value
  | ⟨i, name, attrs, links⟩ => ⟨ν.ident i, name, attrs, renameLinks ν links⟩

def Link.rename (ν : Renaming) : Link Value → Link Value
  | ⟨i, target, sourcePort, attrs⟩ => ⟨ν.ident i, target.rename ν, sourcePort.rename ν, attrs⟩

/-- The links of a node or graph. -/
def renameLinks (ν : Renaming) : List (Link Value) → List (Link Value)
  | [] => []
  | l :: rest => l.rename ν :: renameLinks ν rest

def Target.rename (ν : Renaming) : Target Value → Target Value
  | .point p => .point (p.rename ν)
  | .graph g => .graph (g.rename ν)
  | .foreign t => .foreign (t.rename ν)

def NodePoint.rename (ν : Renaming) : NodePoint Value → NodePoint Value
  | ⟨i, anchor, place⟩ => ⟨ν.ident i, anchor.rename ν, place.rename ν⟩

def Anchor.rename (ν : Renaming) : Anchor Value → Anchor Value
  | .source s => .source (s.rename ν)
  | .foreign v => .foreign (v.rename ν)

def Source.rename (ν : Renaming) : Source Value → Source Value
  | .node n => .node (n.rename ν)
  | .graph g => .graph (g.rename ν)

def Graph.rename (ν : Renaming) : Graph Value → Graph Value
  | .mk i name directed strict attrs graphAttrs nodeAttrs linkAttrs nodes nodeIndex subgraphs
      subgraphIndex links =>
    .mk (ν.ident i) name directed strict attrs graphAttrs nodeAttrs linkAttrs (renameNodes ν nodes)
      nodeIndex (renameGraphs ν subgraphs) subgraphIndex (renameLinks ν links)

/-- The nodes of a graph. -/
def renameNodes (ν : Renaming) : List (Node Value) → List (Node Value)
  | [] => []
  | n :: rest => n.rename ν :: renameNodes ν rest

/-- The subgraphs of a graph. -/
def renameGraphs (ν : Renaming) : List (Graph Value) → List (Graph Value)
  | [] => []
  | g :: rest => g.rename ν :: renameGraphs ν rest

end

section Fields

variable (ν : Renaming)

/-- An entry of a map with other numbers. -/
def renameEntry (e : Value × Value) : Value × Value := (e.1.rename ν, e.2.rename ν)

@[simp] theorem renameItems_eq_map (vs : List Value) :
    renameItems ν vs = vs.map (Value.rename ν) := by
  induction vs with
  | nil => rfl
  | cons v rest ih => rw [renameItems, ih, List.map_cons]

@[simp] theorem renameEntries_eq_map (es : List (Value × Value)) :
    renameEntries ν es = es.map (renameEntry ν) := by
  induction es with
  | nil => rfl
  | cons e rest ih =>
      rw [renameEntries, ih, List.map_cons]
      rfl

@[simp] theorem renameLinks_eq_map (ls : List (Link Value)) :
    renameLinks ν ls = ls.map (Link.rename ν) := by
  induction ls with
  | nil => rfl
  | cons l rest ih => rw [renameLinks, ih, List.map_cons]

@[simp] theorem renameNodes_eq_map (ns : List (Node Value)) :
    renameNodes ν ns = ns.map (Node.rename ν) := by
  induction ns with
  | nil => rfl
  | cons n rest ih => rw [renameNodes, ih, List.map_cons]

@[simp] theorem renameGraphs_eq_map (gs : List (Graph Value)) :
    renameGraphs ν gs = gs.map (Graph.rename ν) := by
  induction gs with
  | nil => rfl
  | cons g rest ih => rw [renameGraphs, ih, List.map_cons]

namespace Port

variable (p : Port Value)

@[simp] theorem ident_rename : (p.rename ν).ident = ν.ident p.ident := by cases p; rfl

@[simp] theorem record_rename : (p.rename ν).record = p.record.rename ν := by cases p; rfl

@[simp] theorem compass_rename : (p.rename ν).compass = p.compass := by cases p; rfl

@[simp] theorem isEmpty_rename : (p.rename ν).isEmpty = p.isEmpty := by
  obtain ⟨i, record, compass⟩ := p
  cases record <;> rfl

@[simp] theorem rename_nowhere : (nowhere : Port Value).rename ν = nowhere := by
  show Port.mk (ν.ident 0) .absent none = _
  rw [ν.ident_zero]
  rfl

end Port

namespace Node

variable (n : Node Value)

@[simp] theorem ident_rename : (n.rename ν).ident = ν.ident n.ident := by cases n; rfl

@[simp] theorem name_rename : (n.rename ν).name = n.name := by cases n; rfl

@[simp] theorem attrs_rename : (n.rename ν).attrs = n.attrs := by cases n; rfl

@[simp] theorem links_rename : (n.rename ν).links = n.links.map (Link.rename ν) := by
  cases n
  exact renameLinks_eq_map ν _

end Node

namespace Link

variable (l : Link Value)

@[simp] theorem ident_rename : (l.rename ν).ident = ν.ident l.ident := by cases l; rfl

@[simp] theorem target_rename : (l.rename ν).target = l.target.rename ν := by cases l; rfl

@[simp] theorem sourcePort_rename : (l.rename ν).sourcePort = l.sourcePort.rename ν := by
  cases l; rfl

@[simp] theorem attrs_rename : (l.rename ν).attrs = l.attrs := by cases l; rfl

end Link

namespace NodePoint

variable (p : NodePoint Value)

@[simp] theorem ident_rename : (p.rename ν).ident = ν.ident p.ident := by cases p; rfl

@[simp] theorem anchor_rename : (p.rename ν).anchor = p.anchor.rename ν := by cases p; rfl

@[simp] theorem place_rename : (p.rename ν).place = p.place.rename ν := by cases p; rfl

end NodePoint

namespace Graph

variable (g : Graph Value)

@[simp] theorem ident_rename : (g.rename ν).ident = ν.ident g.ident := by cases g; rfl

@[simp] theorem name_rename : (g.rename ν).name = g.name := by cases g; rfl

@[simp] theorem directed_rename : (g.rename ν).directed = g.directed := by cases g; rfl

@[simp] theorem strict_rename : (g.rename ν).strict = g.strict := by cases g; rfl

@[simp] theorem attrs_rename : (g.rename ν).attrs = g.attrs := by cases g; rfl

@[simp] theorem graphAttrs_rename : (g.rename ν).graphAttrs = g.graphAttrs := by cases g; rfl

@[simp] theorem nodeAttrs_rename : (g.rename ν).nodeAttrs = g.nodeAttrs := by cases g; rfl

@[simp] theorem linkAttrs_rename : (g.rename ν).linkAttrs = g.linkAttrs := by cases g; rfl

@[simp] theorem nodeIndex_rename : (g.rename ν).nodeIndex = g.nodeIndex := by cases g; rfl

@[simp] theorem subgraphIndex_rename : (g.rename ν).subgraphIndex = g.subgraphIndex := by
  cases g; rfl

@[simp] theorem nodes_rename : (g.rename ν).nodes = g.nodes.map (Node.rename ν) := by
  cases g
  exact renameNodes_eq_map ν _

@[simp] theorem subgraphs_rename : (g.rename ν).subgraphs = g.subgraphs.map (Graph.rename ν) := by
  cases g
  exact renameGraphs_eq_map ν _

@[simp] theorem links_rename : (g.rename ν).links = g.links.map (Link.rename ν) := by
  cases g
  exact renameLinks_eq_map ν _

@[simp] theorem table_rename (slot : GraphTable) : (g.rename ν).table slot = g.table slot := by
  cases g
  cases slot <;> rfl

end Graph

end Fields

namespace Value

variable (ν : Renaming)

/-! ## What a value stands for -/

theorem toRecord_rename (v : Value) : (v.rename ν).toRecord = v.toRecord.rename ν := by
  cases v <;> rfl

theorem ofRecord_rename (r : RecordName Value) : ofRecord (r.rename ν) = (ofRecord r).rename ν := by
  cases r <;> rfl

theorem toPlace_rename (v : Value) : (v.rename ν).toPlace = v.toPlace.rename ν := by
  cases v <;> rfl

theorem ofPlace_rename (p : Place Value) : ofPlace (p.rename ν) = (ofPlace p).rename ν := by
  cases p <;> rfl

theorem toAnchor_rename (v : Value) : (v.rename ν).toAnchor = v.toAnchor.rename ν := by
  cases v <;> rfl

theorem ofAnchor_rename (a : Anchor Value) : ofAnchor (a.rename ν) = (ofAnchor a).rename ν := by
  rcases a with (_ | _) | _ <;> rfl

theorem ofTarget_rename (t : Target Value) : ofTarget (t.rename ν) = (ofTarget t).rename ν := by
  cases t <;> rfl

theorem isGiven_rename (v : Value) : (v.rename ν).isGiven = v.isGiven := by
  cases v with
  | list i items => cases items <;> rfl
  | map i entries => cases entries <;> rfl
  | _ => rfl

theorem isKey_rename : ∀ v : Value, (v.rename ν).isKey = v.isKey
  | .port ⟨_, .foreign v, _⟩ => isKey_rename v
  | .port ⟨_, .absent, _⟩ => rfl
  | .port ⟨_, .text _, _⟩ => rfl
  | .port ⟨_, .label _, _⟩ => rfl
  | .none => rfl
  | .bool _ => rfl
  | .int _ => rfl
  | .float _ _ => rfl
  | .text _ => rfl
  | .list _ _ => rfl
  | .map _ _ => rfl
  | .label _ => rfl
  | .table _ => rfl
  | .compass _ => rfl
  | .node _ => rfl
  | .point _ => rfl
  | .link _ => rfl
  | .graph _ => rfl
  | .graphView _ _ _ => rfl
  | .contextView _ _ _ => rfl
  | .context _ => rfl
  | .foreign _ => rfl

/-! ## Equality -/

theorem identical_rename (a b : Value) :
    identical (a.rename ν) (b.rename ν) = identical a b := by
  cases a <;> cases b <;> try first | rfl | exact ν.beq_context _ _
  all_goals simp only [Value.rename, identical, identity?, Port.ident_rename, Node.ident_rename,
    Link.ident_rename, Graph.ident_rename, NodePoint.ident_rename, ForeignTarget.rename,
    ν.beq_ident]

theorem quantity?_rename (v : Value) : (v.rename ν).quantity? = v.quantity? := by
  cases v <;> rfl

theorem tableMatches_rename (t : AttrTable) (es : List (Value × Value)) :
    tableMatches t (renameEntries ν es) = tableMatches t es := by
  rw [renameEntries_eq_map]
  unfold tableMatches
  rw [List.length_map, List.all_map]
  congr 2
  funext e
  obtain ⟨k, v⟩ := e
  cases k with
  | text s =>
      dsimp only [Function.comp, renameEntry, rename]
      rcases t.get? s with _ | (_ | _) <;> cases v <;> rfl
  | _ => rfl

theorem equal_default_rename (a b : Value) :
    (match (a.rename ν).quantity?, (b.rename ν).quantity? with
      | some x, some y => x.same y
      | _, _ => identical (a.rename ν) (b.rename ν)) =
      match a.quantity?, b.quantity? with
      | some x, some y => x.same y
      | _, _ => identical a b := by
  rw [quantity?_rename, quantity?_rename, identical_rename]

mutual

theorem equal_rename (a b : Value) :
    equal (a.rename ν) (b.rename ν) = equal a b := by
  have hdefault := equal_default_rename ν a b
  rw [equal.eq_def, equal.eq_def a b]
  cases a with
  | list i xs =>
      cases b with
      | list j ys => exact equalItems_rename xs ys
      | _ => exact hdefault
  | map i xs =>
      cases b with
      | map j ys =>
          show ((renameEntries ν xs).length == (renameEntries ν ys).length &&
            entriesAmong (renameEntries ν xs) (renameEntries ν ys)) = _
          rw [entriesAmong_rename xs ys, renameEntries_eq_map, renameEntries_eq_map,
            List.length_map, List.length_map]
      | table t => exact tableMatches_rename ν t xs
      | _ => exact hdefault
  | table t =>
      cases b with
      | map j ys => exact tableMatches_rename ν t ys
      | table u => rfl
      | _ => exact hdefault
  | port p =>
      obtain ⟨i, r, c⟩ := p
      cases b with
      | port q =>
          obtain ⟨j, r', c'⟩ := q
          show (equalRecords (r.rename ν) (r'.rename ν) && c == c') = _
          rw [equalRecords_rename r r']
      | _ => exact hdefault
  | _ => exact hdefault

theorem equalItems_rename : ∀ xs ys : List Value,
    equalItems (renameItems ν xs) (renameItems ν ys) = equalItems xs ys
  | [], [] => rfl
  | [], _ :: _ => by simp only [renameItems, equalItems]
  | _ :: _, [] => by simp only [renameItems, equalItems]
  | x :: xs, y :: ys => by
    rw [renameItems, renameItems, equalItems, equalItems, identical_rename, equal_rename x y,
      equalItems_rename xs ys]

theorem entriesAmong_rename : ∀ xs ys : List (Value × Value),
    entriesAmong (renameEntries ν xs) (renameEntries ν ys) = entriesAmong xs ys
  | [], _ => by simp only [renameEntries, entriesAmong]
  | (k, v) :: rest, ys => by
    rw [renameEntries, entriesAmong, entriesAmong, entriesAmong_rename rest ys,
      renameEntries_eq_map, List.any_map]
    congr 2
    funext e
    show ((identical (k.rename ν) (e.1.rename ν) || equal (k.rename ν) (e.1.rename ν)) &&
      (identical (v.rename ν) (e.2.rename ν) || equal (v.rename ν) (e.2.rename ν))) = _
    rw [identical_rename, identical_rename, equal_rename k e.1, equal_rename v e.2]

theorem equalRecords_rename : ∀ r r' : RecordName Value,
    equalRecords (r.rename ν) (r'.rename ν) = equalRecords r r'
  | .foreign v, r => by
    cases r with
    | foreign v' =>
        rw [RecordName.rename, RecordName.rename, equalRecords, equalRecords, equal_rename v v']
    | _ => simp only [RecordName.rename, equalRecords]
  | .absent, r => by cases r <;> simp only [RecordName.rename, equalRecords]
  | .text _, r => by cases r <;> simp only [RecordName.rename, equalRecords]
  | .label _, r => by cases r <;> simp only [RecordName.rename, equalRecords]

end

theorem same_rename (a b : Value) : same (a.rename ν) (b.rename ν) = same a b := by
  rw [same, identical_rename, equal_rename]
  rfl

theorem countDistinct_rename (vs : List Value) :
    countDistinct (vs.map (rename ν)) = countDistinct vs := by
  -- what has been seen is found again under other numbers
  have hfold : ∀ seen : List Value,
      (vs.map (rename ν)).foldl (fun seen v => if seen.any (same v) then seen else v :: seen)
        (seen.map (rename ν)) =
      (vs.foldl (fun seen v => if seen.any (same v) then seen else v :: seen) seen).map
        (rename ν) := by
    induction vs with
    | nil => exact fun _ => rfl
    | cons v rest ih =>
        intro seen
        have hany : (seen.map (rename ν)).any (same (v.rename ν)) = seen.any (same v) := by
          rw [List.any_map]
          exact congrArg _ (funext fun u => same_rename ν v u)
        rw [List.map_cons, List.foldl_cons, List.foldl_cons, hany]
        split
        · exact ih seen
        · exact ih (v :: seen)
  have h := congrArg List.length (hfold [])
  rw [List.length_map] at h
  exact h

theorem setEntry_rename (k v : Value) (es : List (Value × Value)) :
    setEntry (k.rename ν) (v.rename ν) (es.map (renameEntry ν)) =
      (setEntry k v es).map (renameEntry ν) := by
  induction es with
  | nil => rfl
  | cons e rest ih =>
      obtain ⟨k', v'⟩ := e
      show (if same (k'.rename ν) (k.rename ν) then _ else _) = _
      rw [same_rename, ih, setEntry]
      split <;> rfl

theorem setEntries_rename (base added : List (Value × Value)) :
    setEntries (base.map (renameEntry ν)) (added.map (renameEntry ν)) =
      (setEntries base added).map (renameEntry ν) := by
  induction added generalizing base with
  | nil => rfl
  | cons e rest ih =>
      show setEntries (setEntry (e.1.rename ν) (e.2.rename ν) (base.map (renameEntry ν)))
        (rest.map (renameEntry ν)) = _
      rw [setEntry_rename, ih]
      rfl

end Value

/-! ## What is shown -/

section Shown

variable {ν : Renaming} {cs cs' : Contexts}

@[simp] theorem Node.debug_rename (n : Node Value) : (n.rename ν).debug = n.debug := by
  cases n; rfl

@[simp] theorem Graph.debug_rename (g : Graph Value) : (g.rename ν).debug = g.debug := by
  cases g; rfl

@[simp] theorem Source.debug_rename (s : Source Value) : (s.rename ν).debug = s.debug := by
  cases s
  · exact Node.debug_rename _
  · exact Graph.debug_rename _

mutual

/-- A value is shown as before if the contexts hold under their other numbers what they held. -/
theorem Value.debug_rename (h : ν.Fits cs cs') : ∀ v : Value, (v.rename ν).debug cs' = v.debug cs
  | .none => rfl
  | .bool _ => rfl
  | .int _ => rfl
  | .float _ _ => by
    unfold Value.rename Value.debug
    rfl
  | .text _ => rfl
  | .list _ items =>
    congrArg (fun shown => "[" ++ ", ".intercalate shown ++ "]") (debugItems_rename h items)
  | .map _ entries => congrArg debugEntries (debugPairs_rename h entries)
  | .label _ => rfl
  | .table _ => rfl
  | .compass _ => rfl
  | .port p => Port.debug_rename h p
  | .node n => Node.debug_rename n
  | .point p => NodePoint.debug_rename h p
  | .link l => Link.debug_rename h l
  | .graph g => Graph.debug_rename g
  | .graphView _ owner slot =>
    congrArg (fun shown => s!"<AttributeView {slot.name} of {shown}>") (Graph.debug_rename owner)
  | .contextView _ owner slot =>
    congrArg (fun d : Defaults => s!"<AttributeView {slot.tableName} of {d.debug}>") (h owner)
  | .context c => congrArg Defaults.debug (h c)
  | .foreign _ => rfl

theorem debugItems_rename (h : ν.Fits cs cs') :
    ∀ vs : List Value, debugItems cs' (renameItems ν vs) = debugItems cs vs
  | [] => rfl
  | v :: rest => by
    rw [renameItems, debugItems, debugItems, Value.debug_rename h v, debugItems_rename h rest]

theorem debugPairs_rename (h : ν.Fits cs cs') :
    ∀ es : List (Value × Value), debugPairs cs' (renameEntries ν es) = debugPairs cs es
  | [] => rfl
  | (k, v) :: rest => by
    rw [renameEntries, debugPairs, debugPairs, Value.debug_rename h k, Value.debug_rename h v,
      debugPairs_rename h rest]

theorem Port.debug_rename (h : ν.Fits cs cs') :
    ∀ p : Port Value, (p.rename ν).debug cs' = p.debug cs
  | ⟨_, .absent, _⟩ => rfl
  | ⟨_, .text _, _⟩ => rfl
  | ⟨_, .label _, _⟩ => rfl
  | ⟨_, .foreign v, c⟩ => congrArg (debugPort · c) (Value.debug_rename h v)

theorem Place.debug_rename (h : ν.Fits cs cs') :
    ∀ p : Place Value, (p.rename ν).debug cs' = p.debug cs
  | .port p => Port.debug_rename h p
  | .foreign v => Value.debug_rename h v

theorem Anchor.debug_rename (h : ν.Fits cs cs') :
    ∀ a : Anchor Value, (a.rename ν).debug cs' = a.debug cs
  | .source s => Source.debug_rename s
  | .foreign v => Value.debug_rename h v

theorem NodePoint.debug_rename (h : ν.Fits cs cs') :
    ∀ p : NodePoint Value, (p.rename ν).debug cs' = p.debug cs
  | ⟨_, anchor, place⟩ => by
    rw [NodePoint.rename, NodePoint.debug, NodePoint.debug, Anchor.debug_rename h anchor,
      Place.debug_rename h place]

theorem Target.debug_rename (h : ν.Fits cs cs') :
    ∀ t : Target Value, (t.rename ν).debug cs' = t.debug cs
  | .point p => NodePoint.debug_rename h p
  | .graph g => Graph.debug_rename g
  | .foreign _ => rfl

theorem Link.debug_rename (h : ν.Fits cs cs') :
    ∀ l : Link Value, (l.rename ν).debug cs' = l.debug cs
  | ⟨_, target, _, _⟩ => by rw [Link.rename, Link.debug, Link.debug, Target.debug_rename h target]

end

/-! ## What is reported -/

theorem Link.report_rename (h : ν.Fits cs cs') (l : Link Value) :
    (l.rename ν).report cs' = l.report cs := by
  rw [Link.report, target_rename, sourcePort_rename, attrs_rename, Target.debug_rename h,
    Port.debug_rename h]
  rfl

theorem Link.map_report_rename (h : ν.Fits cs cs') (ls : List (Link Value)) :
    (ls.map (Link.rename ν)).map (Link.report cs') = ls.map (Link.report cs) := by
  rw [List.map_map]
  exact List.map_congr_left fun l _ => l.report_rename h

theorem RecordName.report_rename (h : ν.Fits cs cs') (r : RecordName Value) :
    (r.rename ν).report cs' = r.report cs := by
  cases r with
  | foreign v =>
      have hshown := congrArg Report.shown (Value.debug_rename h v)
      cases v <;> first | rfl | exact hshown
  | _ => rfl

theorem Port.report_rename (h : ν.Fits cs cs') (p : Port Value) :
    (p.rename ν).report cs' = p.report cs := by
  rw [Port.report, record_rename, RecordName.report_rename h, compass_rename, isEmpty_rename]
  rfl

mutual

/-- So a value is reported as before. -/
theorem Value.report_rename (h : ν.Fits cs cs') :
    ∀ v : Value, (v.rename ν).report cs' = v.report cs
  | .none => rfl
  | .bool _ => rfl
  | .int _ => rfl
  | .float i x => congrArg Report.shown (Value.debug_rename h (.float i x))
  | .text _ => rfl
  | .list _ items => congrArg Report.items (reportItems_rename h items)
  | .map i es => congrArg Report.shown (Value.debug_rename h (.map i es))
  | .label _ => rfl
  | .table _ => rfl
  | .compass _ => rfl
  | .port p => Port.report_rename h p
  | .node n => by
    rw [Value.rename, Value.report, Value.report, Node.name_rename, Node.attrs_rename,
      Node.links_rename, Link.map_report_rename h]
  | .point p => NodePoint.report_rename h p
  | .link l => congrArg Report.link (Link.report_rename h l)
  | .graph g => by
    have hnodes : (g.nodes.map (Node.rename ν)).map Node.debug = g.nodes.map Node.debug := by
      rw [List.map_map]
      exact List.map_congr_left fun n _ => n.debug_rename
    have hsubgraphs : (g.subgraphs.map (Graph.rename ν)).map Graph.debug =
        g.subgraphs.map Graph.debug := by
      rw [List.map_map]
      exact List.map_congr_left fun s _ => s.debug_rename
    simp only [Value.rename, Value.report, Graph.name_rename, Graph.directed_rename,
      Graph.strict_rename, Graph.attrs_rename, Graph.graphAttrs_rename, Graph.nodeAttrs_rename,
      Graph.linkAttrs_rename, Graph.nodes_rename, Graph.subgraphs_rename, Graph.links_rename,
      hnodes, hsubgraphs, Link.map_report_rename h]
  | .graphView i owner slot => by
    have hshown := Value.debug_rename h (.graphView i owner slot)
    rw [Value.rename] at hshown ⊢
    rw [Value.report, Value.report, hshown, Graph.table_rename]
  | .contextView i owner slot => by
    have hshown := Value.debug_rename h (.contextView i owner slot)
    rw [Value.rename] at hshown ⊢
    rw [Value.report, Value.report, hshown, h owner]
  | .context c => congrArg Report.context (h c)
  | .foreign _ => rfl

theorem NodePoint.report_rename (h : ν.Fits cs cs') :
    ∀ p : NodePoint Value, (p.rename ν).report cs' = p.report cs
  | ⟨_, anchor, .port p⟩ => by
    rw [NodePoint.rename, Place.rename, NodePoint.report, NodePoint.report,
      Anchor.debug_rename h anchor, Port.report_rename h p]
  | ⟨_, anchor, .foreign v⟩ => by
    rw [NodePoint.rename, Place.rename, NodePoint.report, NodePoint.report,
      Anchor.debug_rename h anchor, Value.report_rename h v]

theorem reportItems_rename (h : ν.Fits cs cs') :
    ∀ vs : List Value, reportItems cs' (renameItems ν vs) = reportItems cs vs
  | [] => rfl
  | v :: rest => by
    rw [renameItems, reportItems, reportItems, Value.report_rename h v, reportItems_rename h rest]

end

end Shown

end DotDoc
