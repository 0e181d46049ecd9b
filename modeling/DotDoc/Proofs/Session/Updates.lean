import DotDoc.Proofs.Graph.Laying
import DotDoc.Proofs.Session.Conversions

set_option autoImplicit false

/-!
# Attributes set at once and one by one

An owner of attributes shows a table: an element its own, and a view that of the graph or context it
is of (`Value.shownTable?`). Several attributes are set at once (`Act.giveAttrs`) or one after the
other, each in what the one before has left (`Act.setEach`).

Both leave the same table, or fail alike (`Act.attrs_eq_each`). In that table each key stands where
it was first set, and has the value that was set last. There is one exception. The text of a context
tells what the context holds, and a view of a context changes it in place; where such a text is
among the entries that the view sets, the first entries are told in it only if they are set one by
one (`Act.not_all_attrs_eq_each`).
-/

namespace DotDoc

open Act (Quiet)
open AttrTable (converted)

variable {v u : Value} {w w₁ : World} {cs : Contexts} {t t' : AttrTable}

/-! ## Owners of attributes -/

namespace Value

/-- The table that an owner of attributes shows, where the contexts hold this. -/
def shownTable? (cs : Contexts) : Value → Option AttrTable
  | node n => some n.attrs
  | link l => some l.attrs
  | graph g => some g.attrs
  | graphView _ owner slot => some (owner.table slot)
  | contextView _ c slot => some (cs.table c slot)
  | _ => Option.none

/-- The table that is shown is what the owner's attributes are read as. -/
theorem run_field_attributes (hv : v.shownTable? w.contexts = some t) (active : Stack) :
    (v.field active .attributes).run w = (.ok (.table t), w) := by
  cases v <;> cases hv <;> rfl

/-- What the contexts hold when an owner has been given a table: its own context holds the table,
if it is a view of one. -/
def contextsWith (v : Value) (cs : Contexts) (t : AttrTable) : Contexts :=
  match v with
  | contextView _ c slot => cs.set c ((cs.defaults c).set t slot)
  | _ => cs

/-- The table that was given last counts. -/
theorem contextsWith_contextsWith (v : Value) (cs : Contexts) (t u : AttrTable) :
    v.contextsWith (v.contextsWith cs t) u = v.contextsWith cs u := by
  cases v with
  | contextView i c slot =>
      have hdefaults : (Contexts.defaults (cs.set c ((cs.defaults c).set t slot)) c).set u slot =
          (cs.defaults c).set u slot := by
        rw [Contexts.defaults, Table.get?_set, if_pos rfl]
        cases slot <;> rfl
      show (cs.set c _).set c ((Contexts.defaults (cs.set c _) c).set u slot) = _
      rw [hdefaults, Table.set_set]
      rfl
  | _ => rfl

end Value

/-! ## Texts that tell nothing of contexts -/

/-- The value is no context and no view of one, and it is not made up of other values. -/
def Value.isPlain : Value → Bool
  | .list .. => false
  | .map .. => false
  | .port _ => false
  | .point _ => false
  | .link _ => false
  | .contextView .. => false
  | .context _ => false
  | _ => true

theorem Value.run_toText_of_isPlain (hv : v.isPlain = true) (w w' : World) :
    (v.toText.run w).1 = (v.toText.run w').1 := by
  cases v with
  | graph g =>
      show ((Act.serialize g .standard).run w).1 = ((Act.serialize g .standard).run w').1
      unfold Act.serialize
      split <;> rfl
  | _ => first | rfl | cases hv

theorem AttrTable.converted_of_isPlain {e : Value × Value} (hkey : e.1.isPlain = true)
    (hvalue : e.2.isPlain = true) (cs cs' : Contexts) : converted cs e = converted cs' e := by
  have hattr : ∀ w w' : World, (e.2.toAttr.run w).1 = (e.2.toAttr.run w').1 := by
    intro w w'
    unfold Value.toAttr
    split
    · rfl
    · rfl
    · rw [Act.run_bind, Act.run_bind, Value.run_toText_of_isPlain hvalue w w']
      cases (e.2.toText.run w').1 <;> rfl
  unfold converted convertEntry
  rw [Act.run_bind, Act.run_bind, hattr _ ⟨0, cs', []⟩]
  cases (e.2.toAttr.run ⟨0, cs', []⟩).1 with
  | error f => rfl
  | ok a =>
      show ((e.1.toText >>= fun k => pure (k, a)).run _).1 =
        ((e.1.toText >>= fun k => pure (k, a)).run _).1
      rw [Act.run_bind, Act.run_bind, Value.run_toText_of_isPlain hkey _ (e.2.toAttr.run _).2]
      cases (e.1.toText.run (e.2.toAttr.run ⟨0, cs', []⟩).2).1 <;> rfl

namespace Act

/-! ## Updates in a row -/

/-- What is updated next where the update of a value has given another one: that one, or a view of
it, if it was a view that was updated. -/
def again (v u : Value) : Act Value :=
  match v, u with
  | .graphView _ _ slot, .graph g => viewGraph g slot
  | .contextView i c slot, _ => return .contextView i c slot
  | _, u => return u

/-- Give attributes their values one after the other, each in what the one before has left. -/
def setEach (v : Value) : List (Value × Value) → Act Value
  | [] => return v
  | e :: rest => do
    let u ← again v (← setAttr v e.1 e.2)
    setEach u rest

/-- The operation that gives several attributes their values, with its arguments by place and by
name. -/
def giveAttrs (v : Value) (items : Option Value) (named : List (String × Value)) : Act Value := do
  let (items, named) ← splitArgument "attrs" items named
  refuseNames ["self", "items"] named
  setAttrs v (items.getD .none) named

/-- Give several attributes their values, and go on with the outcome. -/
def setAtOnce (v : Value) (items : Option Value) (named : List (String × Value)) : Act Value := do
  again v (← giveAttrs v items named)

/-- A call for this operation evaluates the arguments and carries it out. -/
theorem perform_attrs (active : Stack) (names : Names) (on : String) (items : Option Expr)
    (named : Named) :
    perform active names (.attrs on items named) = (do
      let owner ← names.readFor Value.ownsAttributes on
      let items ← items.mapM (Expr.eval names)
      let named ← evalNamed names named
      return .value (← giveAttrs owner items named)) := by
  simp [perform, giveAttrs]

/-- What is read as the attributes when the action has been carried out. -/
def shown (a : Act Value) (w : World) : Except Failure Value :=
  ((do (← a).field [] .attributes).run w).1

theorem shown_of_ok {a : Act Value} (ha : a.run w = (.ok u, w₁))
    (hu : u.shownTable? w₁.contexts = some t) : shown a w = .ok (.table t) := by
  rw [shown, run_bind, ha]
  exact congrArg Prod.fst (Value.run_field_attributes hu [])

theorem shown_of_error {a : Act Value} {e : Failure} (ha : a.run w = (.error e, w₁)) :
    shown a w = .error e := by
  rw [shown, run_bind, ha]

/-- The value shows this table where the contexts hold this, and it stands for the same context as
the first one, if that is a view of one. -/
structure Succeeds (v u : Value) (cs : Contexts) (t : AttrTable) : Prop where
  shown : u.shownTable? cs = some t
  contexts : ∀ cs t, u.contextsWith cs t = v.contextsWith cs t

/-- To update an owner is to change the table that it shows, and then to hand over the outcome,
which does not fail: the new table is shown by the next owner, and set in the context, if it is one
that holds it. -/
theorem exists_update (hv : v.shownTable? w.contexts = some t) :
    ∃ handOver : AttrTable → Act Value,
      (∀ f, (changeAttributes v f >>= again v).run w = (f t >>= handOver).run w) ∧
      ∀ t' w', ∃ u w'', (handOver t').run w' = (.ok u, w'') ∧
        w''.contexts = v.contextsWith w'.contexts t' ∧ Succeeds v u w''.contexts t' := by
  cases v with
  | node n =>
      cases hv
      exact ⟨fun attrs => do return .node (← make (Node.renew { n with attrs })),
        fun f => by rw [changeAttributes, bind_assoc]; rfl,
        fun t' w' => ⟨_, _, rfl, rfl, rfl, fun _ _ => rfl⟩⟩
  | link l =>
      cases hv
      exact ⟨fun attrs => do return .link (← make (Link.renew { l with attrs })),
        fun f => by rw [changeAttributes, bind_assoc]; rfl,
        fun t' w' => ⟨_, _, rfl, rfl, rfl, fun _ _ => rfl⟩⟩
  | graph g =>
      cases hv
      exact ⟨fun attrs => do return .graph (← make (Graph.renew { g with attrs })),
        fun f => by rw [changeAttributes, bind_assoc]; rfl,
        fun t' w' => ⟨_, _, rfl, rfl, rfl, fun _ _ => rfl⟩⟩
  | graphView i owner slot =>
      cases hv
      refine ⟨fun attrs => do viewGraph (← make (owner.withTable attrs slot).renew) slot,
        fun f => by rw [changeAttributes, bind_assoc]; rfl,
        fun t' w' => ⟨_, _, rfl, rfl, ?_, fun _ _ => rfl⟩⟩
      exact congrArg some (owner.table_withTable t' slot)
  | contextView i c slot =>
      cases hv
      refine ⟨fun attrs => do setDefaults c slot attrs; return .contextView i c slot,
        fun f => ?_, fun t' w' => ⟨_, _, rfl, rfl, ?_, fun _ _ => rfl⟩⟩
      · show ((f ((w.contexts.defaults c).get slot) >>= fun attrs => do
          setDefaults c slot attrs
          return Value.context c) >>= again (.contextView i c slot)).run w = _
        rw [bind_assoc]
        rfl
      · refine congrArg some ((Contexts.table_set w'.contexts c c _ slot).trans ?_)
        rw [if_pos rfl, Defaults.get_set, if_pos rfl]
  | _ => cases hv

/-! ## Setting entries -/

theorem mapM_congr {α β ε : Type} {f g : α → Except ε β} {xs : List α} (h : ∀ x ∈ xs, f x = g x) :
    xs.mapM f = xs.mapM g := by
  induction xs with
  | nil => rfl
  | cons x rest ih =>
      rw [List.mapM_cons, List.mapM_cons, h x List.mem_cons_self,
        ih fun y hy => h y (List.mem_cons_of_mem x hy)]

/-- An update that sets entries shows them set, and fails where they cannot be had. -/
theorem run_setting {f : AttrTable → Act AttrTable} {g : Act (List (String × AttrValue))}
    (hv : v.shownTable? w.contexts = some t) (hg : Quiet g)
    (hf : ∀ t, f t = (do return Table.setAll t (← g))) :
    match (g.run w).1 with
    | .ok new => ∃ u w', (changeAttributes v f >>= again v).run w = (.ok u, w') ∧
        w'.contexts = v.contextsWith w.contexts (t.setAll new) ∧
        Succeeds v u w'.contexts (t.setAll new)
    | .error e => ∃ w', (changeAttributes v f >>= again v).run w = (.error e, w') ∧
        w'.contexts = w.contexts := by
  obtain ⟨handOver, hupdate, hover⟩ := exists_update hv
  have hquiet := hg w
  rw [hupdate, hf, bind_assoc, run_bind]
  cases (g.run w).1 with
  | error e => exact ⟨(g.run w).2, rfl, hquiet⟩
  | ok new =>
      obtain ⟨u, w', hrun, hcontexts, hsucceeds⟩ := hover (t.setAll new) (g.run w).2
      rw [hquiet] at hcontexts
      exact ⟨u, w', hrun, hcontexts, hsucceeds⟩

/-- What the entries become does not depend on the table that the owner shows. -/
def Unread (v : Value) (cs : Contexts) (es : List (Value × Value)) : Prop :=
  ∀ e ∈ es, ∀ t, converted (v.contextsWith cs t) e = converted cs e

theorem unread_of_isPlain {es : List (Value × Value)}
    (hes : ∀ e ∈ es, e.1.isPlain = true ∧ e.2.isPlain = true) (v : Value) (cs : Contexts) :
    Unread v cs es :=
  fun e he _ => AttrTable.converted_of_isPlain (hes e he).1 (hes e he).2 _ _

theorem unread_of_not_view {es : List (Value × Value)}
    (hv : ∀ i c slot, v ≠ .contextView i c slot) :
    Unread v cs es := by
  intro e _ t
  cases v with
  | contextView i c slot => exact absurd rfl (hv i c slot)
  | _ => rfl

/-- Entries that are set one by one are set in turn. -/
theorem shown_setEach {es : List (Value × Value)} (hv : v.shownTable? w.contexts = some t)
    (hkeys : ∀ e ∈ es, e.1.isKey = true) (hunread : Unread v w.contexts es) :
    shown (setEach v es) w =
      (es.mapM (converted w.contexts)).map fun new => .table (t.setAll new) := by
  induction es generalizing v w t with
  | nil => exact shown_of_ok rfl hv
  | cons e rest ih =>
      obtain ⟨hkey, hkeys⟩ := List.forall_mem_cons.1 hkeys
      obtain ⟨hfirst, hunread⟩ := List.forall_mem_cons.1 hunread
      have hgiven : ((AttrTable.givenEntry e.1 e.2).run w).1 =
          (converted w.contexts e).map fun c => [c] := by
        rw [AttrTable.givenEntry, if_pos hkey, run_bind, AttrTable.run_convertEntry]
        cases converted w.contexts e <;> rfl
      have hset := run_setting hv (AttrTable.quiet_givenEntry e.1 e.2) fun t =>
        t.withAttr_eq e.1 e.2
      have hrest : shown (setEach v (e :: rest)) w =
          (((changeAttributes v (fun t => t.withAttr e.1 e.2) >>= again v) >>= fun u => do
            (← setEach u rest).field [] .attributes).run w).1 := by
        rw [shown, setEach, setAttr, ← bind_assoc, bind_assoc]
      rw [hgiven] at hset
      rw [List.mapM_cons, hrest, run_bind]
      cases hc : converted w.contexts e with
      | error f =>
          rw [hc] at hset
          obtain ⟨w', hrun, -⟩ := hset
          rw [hrun]
          rfl
      | ok c =>
          rw [hc] at hset
          obtain ⟨u, w', hrun, hcontexts, hsucceeds⟩ := hset
          -- the entries to follow become in the new world what they would have become before
          have hsame : ∀ e ∈ rest, converted w'.contexts e = converted w.contexts e := by
            intro e he
            rw [hcontexts]
            exact hunread e he _
          have hunread' : Unread u w'.contexts rest := by
            intro e he t
            rw [hsucceeds.contexts, hcontexts, Value.contextsWith_contextsWith,
              hunread e he, hunread e he]
          rw [hrun]
          show shown (setEach u rest) w' = _
          rw [ih hsucceeds.shown hkeys hunread', mapM_congr hsame]
          cases rest.mapM (converted w.contexts) <;> rfl

theorem giveAttrs_eq {named : List (String × Value)}
    (hnamed : ∀ e ∈ named, e.1 ∉ ["attrs", "self", "items"]) (v : Value) (items : Option Value) :
    giveAttrs v items named = setAttrs v (items.getD .none) named := by
  have hown : named.lookup "attrs" = none := by
    refine List.lookup_eq_none_iff.2 fun e he => ?_
    have hne : e.1 ≠ "attrs" := fun h => hnamed e he (h ▸ List.mem_cons_self)
    simpa using Ne.symm hne
  have hkept : (named.any fun e => ["self", "items"].contains e.1) = false := by
    refine List.any_eq_false.2 fun e he h => hnamed e he ?_
    exact List.mem_cons_of_mem _ (List.contains_iff_mem.1 h)
  have hsplit : splitArgument "attrs" items named = return (items, named) := by
    unfold splitArgument
    rw [hown]
  have hrefuse : refuseNames ["self", "items"] named = return () := by
    rw [refuseNames, hkept]
    rfl
  rw [giveAttrs, hsplit, pure_bind]
  show (refuseNames ["self", "items"] named >>= fun _ => setAttrs v (items.getD .none) named) = _
  rw [hrefuse, pure_bind]

/-- Entries that are set at once are set in turn too, and the contexts hold what they held where one
of the entries cannot be had. -/
theorem shown_setAtOnce {items : Option Value} {es : List (Value × Value)}
    {named : List (String × Value)} (hv : v.shownTable? w.contexts = some t)
    (hitems : (items.getD .none).entries? = some es)
    (hnamed : ∀ e ∈ named, e.1 ∉ ["attrs", "self", "items"]) :
    shown (setAtOnce v items named) w =
        ((es ++ namedEntries named).mapM (converted w.contexts)).map
          (fun new => .table (t.setAll new)) ∧
      ∀ e, (es ++ namedEntries named).mapM (converted w.contexts) = .error e →
        ((setAtOnce v items named).run w).2.contexts = w.contexts := by
  have hgiven : (((do return (← AttrTable.ofGiven (items.getD .none) named).entries) :
      Act (List (String × AttrValue))).run w).1 =
      ((es ++ namedEntries named).mapM (converted w.contexts)).map
        fun new => (Table.ofList new).entries := by
    rw [run_bind, AttrTable.run_ofGiven hitems]
    cases (es ++ namedEntries named).mapM (converted w.contexts) <;> rfl
  have hset := run_setting hv
    ((AttrTable.quiet_ofGiven (items.getD .none) named).bind fun own => .pure own.entries)
    (f := fun t => do return t.overlay (← AttrTable.ofGiven (items.getD .none) named))
    fun t => by rw [bind_assoc]; rfl
  rw [hgiven] at hset
  rw [setAtOnce, giveAttrs_eq hnamed, setAttrs]
  cases hes : (es ++ namedEntries named).mapM (converted w.contexts) with
  | error e =>
      rw [hes] at hset
      obtain ⟨w', hrun, hcontexts⟩ := hset
      exact ⟨shown_of_error hrun, fun _ _ => by rw [hrun]; exact hcontexts⟩
  | ok new =>
      rw [hes] at hset
      obtain ⟨u, w', hrun, -, hsucceeds⟩ := hset
      refine ⟨(shown_of_ok hrun hsucceeds.shown).trans ?_, fun e he => by cases he⟩
      have hall : t.setAll (Table.ofList new).entries = t.setAll new := t.overlay_ofList new
      rw [hall]
      rfl

/-- The last table is the first one with entries set in turn: each key stands where it was first
set, and has the value that was set last. -/
structure SetInTurn (t : AttrTable) (new : List (String × AttrValue)) (t' : AttrTable) : Prop where
  keys : t'.keys = (t.keys ++ new.map Prod.fst).eraseDups
  get? : ∀ k, t'.get? k = (((new.filter (·.1 = k)).getLast?).map Prod.snd).or (t.get? k)

/-- What a key and a value have become: a text is the key itself, a truth value is spelled in lower
case, and a label is kept. -/
structure StandsFor (e : Value × Value) (c : String × AttrValue) : Prop where
  key : ∀ k, e.1 = .text k → c.1 = k
  truth : ∀ b, e.2 = .bool b → c.2 = .ofBool b
  label : ∀ l, e.2 = .label l → c.2 = .label l

theorem setInTurn_setAll (t : AttrTable) (new : List (String × AttrValue)) :
    SetInTurn t new (t.setAll new) where
  keys := t.keys_setAll_eq new
  get? := t.get?_setAll_eq new

/-- **Attributes set at once and one by one.** Whatever owner of attributes they are set in, they
leave the same table or fail alike, unless a view of a context sets entries whose texts tell what it
shows. The table has the entries set in turn in the one that was shown before; and if they cannot be
had, what is set at once leaves the contexts as they were. -/
theorem attrs_eq_each {items : Option Value} {es : List (Value × Value)}
    {named : List (String × Value)} (hv : v.shownTable? w.contexts = some t)
    (hitems : (items.getD .none).entries? = some es) (hkeys : ∀ e ∈ es, e.1.isKey = true)
    (hnamed : ∀ e ∈ named, e.1 ∉ ["attrs", "self", "items"])
    (hunread : ∀ i c slot, v = .contextView i c slot →
      Unread v w.contexts (es ++ namedEntries named)) :
    shown (setAtOnce v items named) w = shown (setEach v (es ++ namedEntries named)) w ∧
      match (es ++ namedEntries named).mapM (converted w.contexts) with
      | .ok new => ∃ t', shown (setAtOnce v items named) w = .ok (.table t') ∧
          SetInTurn t new t' ∧ List.Forall₂ StandsFor (es ++ namedEntries named) new
      | .error e => shown (setAtOnce v items named) w = .error e ∧
          ((setAtOnce v items named).run w).2.contexts = w.contexts := by
  have hall : Unread v w.contexts (es ++ namedEntries named) := by
    by_cases hview : ∃ i c slot, v = .contextView i c slot
    · obtain ⟨i, c, slot, hview⟩ := hview
      exact hunread i c slot hview
    · exact unread_of_not_view fun i c slot h => hview ⟨i, c, slot, h⟩
  have hkeys' : ∀ e ∈ es ++ namedEntries named, e.1.isKey = true := by
    intro e he
    rcases List.mem_append.1 he with he | he
    · exact hkeys e he
    · obtain ⟨c, -, rfl⟩ := List.mem_map.1 he
      rfl
  obtain ⟨honce, hfailed⟩ := shown_setAtOnce hv hitems hnamed
  refine ⟨by rw [honce, shown_setEach hv hkeys' hall], ?_⟩
  cases hes : (es ++ namedEntries named).mapM (converted w.contexts) with
  | error e => exact ⟨by rw [honce, hes]; rfl, hfailed e hes⟩
  | ok new =>
      refine ⟨t.setAll new, by rw [honce, hes]; rfl, setInTurn_setAll t new, ?_⟩
      refine (forall₂_of_mapM hes).imp fun e c hc => ?_
      obtain ⟨hkey, htruth, hlabel⟩ := AttrTable.converted_eq_ok hc
      exact ⟨hkey, htruth, hlabel⟩

/-- A world with one context, which holds an attribute for nodes. -/
def viewedWorld : World := ⟨5, .ofList [(2, ⟨∅, .ofList [("b", .text "0")], ∅⟩)], []⟩

/-- Two keys of one text, and a key that is known. -/
def mixedEntries : List (Value × Value) :=
  [(.int 1, .bool true), (.text "1", .label ⟨"x", true⟩), (.text "b", .int 2)]

theorem attrs_eq_each_viewed :
    shown (setAtOnce (.contextView 1 2 .node) (some (.map 0 mixedEntries)) [("c", .none)])
        viewedWorld =
      shown (setEach (.contextView 1 2 .node) (mixedEntries ++ namedEntries [("c", .none)]))
        viewedWorld := by
  have hitems : ((some (Value.map 0 mixedEntries)).getD .none).entries? = some mixedEntries := rfl
  refine (attrs_eq_each (t := .ofList [("b", .text "0")]) (by rfl) hitems (by decide) (by decide)
    ?_).1
  exact fun _ _ _ _ => unread_of_isPlain (by decide) _ _

/-- An entry, and another one that tells what the context holds. -/
def tellingEntries : List (Value × Value) := [(.text "a", .int 1), (.text "c", .context 2)]

/-- What is read at a key of the table that is shown. -/
def valueAt (k : String) : Except Failure Value → Option AttrValue
  | .ok (.table t) => t.get? k
  | _ => none

/-- Attributes set at once and one by one may differ where a view of a context sets them and the
text of an entry tells what it shows. And one name is taken for something else if it is given for an
attribute among several ones. -/
theorem not_all_attrs_eq_each :
    shown (setAtOnce (.contextView 1 2 .node) (some (.map 0 tellingEntries)) []) viewedWorld ≠
        shown (setEach (.contextView 1 2 .node) tellingEntries) viewedWorld ∧
      shown (setAtOnce (.node ⟨1, ⟨"x", false⟩, ∅, []⟩) none [("items", .int 1)]) viewedWorld ≠
        shown (setEach (.node ⟨1, ⟨"x", false⟩, ∅, []⟩) [(.text "items", .int 1)]) viewedWorld := by
  constructor
  · intro h
    have hvalue := congrArg (valueAt "c") h
    revert hvalue
    decide +kernel
  · intro h
    have hvalue := congrArg (valueAt "items") h
    revert hvalue
    decide +kernel

end Act

end DotDoc
