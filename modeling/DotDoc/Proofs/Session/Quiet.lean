import DotDoc.Proofs.Session.Acts
import DotDoc.Session.Call

set_option autoImplicit false

/-!
# Actions that leave the contexts alone

Hardly any action changes what a context holds (`Act.Quiet`). The exceptions are making a context
and changing attributes by a view of a context. All else may hand out numbers and report events, and
the contexts hold the same before and after it, also where it fails halfway.

So what a sequence of quiet actions yields can be told for contexts that stay as they are
(`Act.Yields`).
-/

namespace DotDoc

variable {α β : Type}

namespace Act

/-- The contexts hold the same after the action as before it. -/
def Quiet (a : Act α) : Prop := ∀ w, (a.run w).2.contexts = w.contexts

/-! ## Rules -/

@[grind .] theorem Quiet.pure (x : α) : Quiet (Pure.pure x : Act α) := fun _ => rfl

@[grind .] theorem Quiet.throw (f : Failure) : Quiet (MonadExcept.throw f : Act α) := fun _ => rfl

@[grind ←] theorem Quiet.bind {a : Act α} {f : α → Act β} (ha : Quiet a)
    (hf : ∀ x, Quiet (f x)) : Quiet (a >>= f) := by
  intro w
  rw [run_bind]
  cases (a.run w).1 with
  | error e => exact ha w
  | ok x => exact (hf x _).trans (ha w)

@[grind ←] theorem Quiet.mapM {f : α → Act β} (hf : ∀ x, Quiet (f x)) (xs : List α) :
    Quiet (xs.mapM f) := by
  induction xs with
  | nil => exact .pure []
  | cons x rest ih =>
      rw [List.mapM_cons]
      exact (hf x).bind fun y => ih.bind fun ys => .pure (y :: ys)

@[grind ←] theorem Quiet.elim {a : Act β} {f : α → Act β} (ha : Quiet a) (hf : ∀ x, Quiet (f x))
    (o : Option α) : Quiet (o.elim a f) := by
  cases o with
  | none => exact ha
  | some x => exact hf x

@[grind .] theorem Quiet.make (s : Supply α) : Quiet (make s) := fun _ => rfl

@[grind .] theorem Quiet.get : Quiet (get : Act World) := fun _ => rfl

@[grind .] theorem quiet_ident : Quiet ident := .make _

@[grind .] theorem quiet_report (e : Event) : Quiet (report e) := fun _ => rfl

@[grind .] theorem quiet_debug (v : Value) : Quiet (debug v) := by
  unfold debug
  grind

@[grind .] theorem quiet_refuse (cause : String → Failure) (v : Value) :
    Quiet (refuse cause v : Act α) := by
  unfold refuse
  grind

@[grind .] theorem quiet_defaults (active : Stack) : Quiet (defaults active) := by
  unfold defaults
  grind

@[grind .] theorem quiet_serialize (g : Graph Value) (d : Dot.Dialect) : Quiet (serialize g d) := by
  unfold serialize
  grind

/-! ## Results -/

/-- What two actions give, one after the other, was given by both. -/
theorem run_bind_eq_ok {a : Act α} {f : α → Act β} {w : World} {y : β}
    (h : ((a >>= f).run w).1 = .ok y) :
    ∃ x, (a.run w).1 = .ok x ∧ ((f x).run (a.run w).2).1 = .ok y := by
  rw [run_bind] at h
  cases hr : (a.run w).1 with
  | error e =>
      rw [hr] at h
      cases h
  | ok x =>
      rw [hr] at h
      exact ⟨x, rfl, h⟩

/-- Where the contexts are these, the action gives results of a kind if it does not fail. -/
def Yields (cs : Contexts) (P : α → Prop) (a : Act α) : Prop :=
  ∀ w, w.contexts = cs → ∀ x, (a.run w).1 = .ok x → P x

variable {cs : Contexts}

theorem Yields.pure {P : α → Prop} {x : α} (h : P x) : Yields cs P (Pure.pure x : Act α) := by
  intro w _ y hy
  cases hy
  exact h

theorem Yields.throw (P : α → Prop) (e : Failure) :
    Yields cs P (MonadExcept.throw e : Act α) := by
  intro w _ y hy
  cases hy

theorem yields_refuse (P : α → Prop) (cause : String → Failure) (v : Value) :
    Yields cs P (refuse cause v : Act α) := by
  intro w _ y hy
  cases hy

/-- After a quiet action the contexts are still the same. -/
theorem Yields.bind {P : α → Prop} {Q : β → Prop} {a : Act α} {f : α → Act β} (hquiet : Quiet a)
    (ha : Yields cs P a) (hf : ∀ x, P x → Yields cs Q (f x)) : Yields cs Q (a >>= f) := by
  intro w hw y hy
  obtain ⟨x, hx, hy⟩ := run_bind_eq_ok hy
  exact hf x (ha w hw x hx) _ ((hquiet w).trans hw) y hy

/-- What the action in front gives does not matter. -/
theorem Yields.after {Q : β → Prop} {a : Act α} {f : α → Act β} (hquiet : Quiet a)
    (hf : ∀ x, Yields cs Q (f x)) : Yields cs Q (a >>= f) :=
  .bind hquiet (fun _ _ _ _ => trivial : Yields cs (fun _ => True) a) fun x _ => hf x

/-- What follows a check holds where the check passes. -/
theorem Yields.guarded {Q : β → Prop} {c : Prop} [Decidable c] {a : Act Unit} {f : Unit → Act β}
    (hquiet : Quiet a) (ha : Yields cs (fun _ => False) a) (hf : ¬ c → Yields cs Q (f ())) :
    Yields cs Q (if c then a >>= f else Pure.pure () >>= f) := by
  split
  · exact .bind hquiet ha fun _ h => h.elim
  · rename_i hc
    exact (pure_bind () f).symm ▸ hf hc

theorem Yields.mono {P Q : α → Prop} {a : Act α} (ha : Yields cs P a) (h : ∀ x, P x → Q x) :
    Yields cs Q a :=
  fun w hw x hx => h x (ha w hw x hx)

theorem Yields.mapM {P : β → Prop} {f : α → Act β} (hquiet : ∀ x, Quiet (f x)) {xs : List α}
    (hf : ∀ x ∈ xs, Yields cs P (f x)) : Yields cs (fun ys => ∀ y ∈ ys, P y) (xs.mapM f) := by
  induction xs with
  | nil => exact .pure fun _ h => absurd h List.not_mem_nil
  | cons x rest ih =>
      rw [List.mapM_cons]
      refine .bind (hquiet x) (hf x List.mem_cons_self) fun y hy => ?_
      refine .bind (.mapM hquiet rest) (ih fun z hz => hf z (List.mem_cons_of_mem x hz)) ?_
      intro ys hys
      exact .pure (List.forall_mem_cons.2 ⟨hy, hys⟩)

theorem Yields.make {P : α → Prop} {s : Supply α} (h : ∀ n, P (s.run n).1) :
    Yields cs P (make s) := by
  intro w _ x hx
  cases hx
  exact h w.nextIdent

end Act

open Act (Quiet)

/-! ## Texts, labels and tables -/

@[grind .] theorem Value.quiet_toText (v : Value) : Quiet v.toText := by
  unfold Value.toText
  grind

@[grind .] theorem Value.quiet_toLabel (v : Value) : Quiet v.toLabel := by
  unfold Value.toLabel
  grind

@[grind .] theorem Value.quiet_toAttr (v : Value) : Quiet v.toAttr := by
  unfold Value.toAttr
  grind

@[grind .] theorem Value.quiet_toCompass (v : Value) : Quiet v.toCompass := by
  unfold Value.toCompass
  grind

namespace AttrTable

@[grind .] theorem quiet_convertEntries (es : List (Value × Value)) : Quiet (convertEntries es) := by
  unfold convertEntries
  grind

@[grind .] theorem quiet_givenEntries (items : Value) : Quiet (givenEntries items) := by
  unfold givenEntries
  grind

@[grind .] theorem quiet_ofGiven (items : Value) (named : List (String × Value)) :
    Quiet (ofGiven items named) := by
  unfold ofGiven
  grind

@[grind .] theorem quiet_setEntries (t : AttrTable) (es : List (Value × Value)) :
    Quiet (t.setEntries es) := by
  unfold setEntries
  grind

@[grind .] theorem quiet_mergeGiven (t : AttrTable) (upper : Value) : Quiet (t.mergeGiven upper) := by
  unfold mergeGiven
  grind

@[grind .] theorem quiet_withAttr (t : AttrTable) (key value : Value) :
    Quiet (t.withAttr key value) := by
  unfold withAttr
  grind

end AttrTable

namespace Act

/-! ## Elements -/

@[grind .] theorem quiet_endpoint? (v : Value) : Quiet (endpoint? v) := by
  unfold endpoint?
  grind

@[grind .] theorem quiet_endpoint (v : Value) : Quiet (endpoint v) := by
  unfold endpoint
  grind

@[grind .] theorem quiet_givenPort (v : Value) : Quiet (givenPort v) := by
  unfold givenPort
  grind

@[grind .] theorem quiet_newLink (active : Stack) (target port attrs : Value) :
    Quiet (newLink active target port attrs) := by
  unfold newLink
  grind

@[grind .] theorem quiet_toLink (active : Stack) (v : Value) : Quiet (toLink active v) := by
  unfold toLink
  grind

@[grind .] theorem quiet_newNode (active : Stack) (name attrs : Value) :
    Quiet (newNode active name attrs) := by
  unfold newNode
  grind

@[grind .] theorem quiet_newGraph (active : Stack) (name : Value) (directed strict : Bool)
    (attrs : Value) : Quiet (newGraph active name directed strict attrs) := by
  unfold newGraph
  grind

@[grind .] theorem quiet_givenSide (v : Value) : Quiet (givenSide v) := by
  unfold givenSide
  grind

@[grind .] theorem quiet_newPort (record compass : Value) : Quiet (newPort record compass) := by
  unfold newPort
  grind

theorem quiet_changePort {f : Port Value → Act (Port Value)} (hf : ∀ p, Quiet (f p)) (v : Value) :
    Quiet (changePort f v) := by
  fun_induction changePort f v <;> grind

@[grind .] theorem quiet_atRecord (v name : Value) : Quiet (atRecord v name) :=
  quiet_changePort (fun _ => .make _) v

@[grind .] theorem quiet_atSide (v direction : Value) : Quiet (atSide v direction) :=
  quiet_changePort (fun _ => (quiet_givenSide direction).bind fun _ => .make _) v

/-- Changing attributes is quiet, unless by a view of a context. -/
theorem quiet_changeAttributes {v : Value} {f : AttrTable → Act AttrTable}
    (hv : ∀ i c slot, v ≠ .contextView i c slot) (hf : ∀ t, Quiet (f t)) :
    Quiet (changeAttributes v f) := by
  unfold changeAttributes
  grind

theorem quiet_setAttrs {v : Value} (hv : ∀ i c slot, v ≠ .contextView i c slot) (items : Value)
    (named : List (String × Value)) : Quiet (setAttrs v items named) :=
  quiet_changeAttributes hv fun _ => (AttrTable.quiet_ofGiven items named).bind fun _ => .pure _

@[grind .] theorem quiet_changeGraph (g : Graph Value) (f : Graph Value → Graph Value) :
    Quiet (changeGraph g f) := by
  unfold changeGraph
  grind

@[grind .] theorem quiet_addLinks (active : Stack) (v : Value) (targets : List Value) :
    Quiet (addLinks active v targets) := by
  unfold addLinks
  grind

@[grind .] theorem quiet_addNodes (g : Graph Value) (nodes : List Value) :
    Quiet (addNodes g nodes) := by
  unfold addNodes
  grind

@[grind .] theorem quiet_addSubgraphs (g : Graph Value) (graphs : List Value) :
    Quiet (addSubgraphs g graphs) := by
  unfold addSubgraphs
  grind

@[grind .] theorem quiet_merge (v other : Value) : Quiet (merge v other) := by
  unfold merge
  grind

@[grind .] theorem quiet_chainFrom (active : Stack) (stem : String) (k : Nat) (last : Node Value) :
    Quiet (chainFrom active stem k last) := by
  induction k generalizing last with
  | zero => exact .pure last
  | succ k ih =>
      unfold chainFrom
      grind

@[grind .] theorem quiet_chain (active : Stack) (stem : String) (count : Int) :
    Quiet (chain active stem count) := by
  unfold chain
  grind

@[grind .] theorem quiet_nestFrom (active : Stack) (stem : String) (k : Nat) (inner : Graph Value) :
    Quiet (nestFrom active stem k inner) := by
  induction k generalizing inner with
  | zero => exact .pure inner
  | succ k ih =>
      unfold nestFrom
      grind

@[grind .] theorem quiet_nest (active : Stack) (stem : String) (count : Int) :
    Quiet (nest active stem count) := by
  unfold nest
  grind

end Act

/-! ## Arguments -/

@[grind .] theorem Names.quiet_read (names : Names) (n : String) : Quiet (names.read n) := by
  unfold Names.read
  grind

@[grind .] theorem Names.quiet_readFor (names : Names) (p : Value → Bool) (n : String) :
    Quiet (names.readFor p n) := by
  unfold Names.readFor
  grind

/-- What is read under a name is stored there, and reading changes nothing. -/
theorem Names.run_readFor {names : Names} {p : Value → Bool} {n : String} {w : World} {v : Value}
    (h : ((names.readFor p n).run w).1 = .ok v) :
    names.get? n = some v ∧ ((names.readFor p n).run w).2 = w := by
  unfold Names.readFor Names.read at h ⊢
  cases hv : names.get? n with
  | none =>
      rw [hv] at h
      cases h
  | some u =>
      rw [hv, pure_bind] at h
      rw [pure_bind]
      by_cases hp : p u = true
      · rw [if_pos hp] at h ⊢
        cases h
        exact ⟨rfl, rfl⟩
      · rw [if_neg hp] at h
        cases h

mutual

@[grind .] theorem Expr.quiet_eval (names : Names) : ∀ e : Expr, Quiet (e.eval names)
  | .none => by rw [Expr.eval]; exact .pure _
  | .bool b => by rw [Expr.eval]; exact .pure _
  | .int i => by rw [Expr.eval]; exact .pure _
  | .text s => by rw [Expr.eval]; exact .pure _
  | .list items => by
    rw [Expr.eval]
    have := quiet_evalItems names items
    grind
  | .name n => by
    rw [Expr.eval]
    exact names.quiet_read n
  | .markup e => by
    rw [Expr.eval]
    have := Expr.quiet_eval names e
    grind
  | .number text => by
    rw [Expr.eval]
    grind
  | .map entries => by
    rw [Expr.eval]
    have := quiet_evalEntries names entries
    grind

@[grind .] theorem quiet_evalItems (names : Names) : ∀ es : List Expr, Quiet (evalItems names es)
  | [] => by
    rw [evalItems]
    exact .pure _
  | e :: rest => by
    rw [evalItems]
    have := Expr.quiet_eval names e
    have := quiet_evalItems names rest
    grind

@[grind .] theorem quiet_evalEntries (names : Names) :
    ∀ (es : List (Expr × Expr)) (done : List (Value × Value)), Quiet (evalEntries names done es)
  | [], done => by
    rw [evalEntries]
    exact .pure _
  | (k, e) :: rest, done => by
    rw [evalEntries]
    have := Expr.quiet_eval names k
    have := Expr.quiet_eval names e
    have := quiet_evalEntries names rest
    grind

end

@[grind .] theorem quiet_evalOr (names : Names) (e : Option Expr) (missing : Value) :
    Quiet (evalOr names e missing) := by
  unfold evalOr
  grind

@[grind .] theorem quiet_evalNamed (names : Names) (named : Named) :
    Quiet (evalNamed names named) := by
  unfold evalNamed
  grind

@[grind .] theorem quiet_splitArgument (own : String) (given : Option Value)
    (named : List (String × Value)) : Quiet (splitArgument own given named) := by
  unfold splitArgument
  grind

@[grind .] theorem quiet_refuseNames (kept : List String) (named : List (String × Value)) :
    Quiet (refuseNames kept named) := by
  unfold refuseNames
  grind

@[grind .] theorem quiet_mapOfNamed (named : List (String × Value)) : Quiet (mapOfNamed named) := by
  unfold mapOfNamed
  grind

@[grind .] theorem quiet_mapM_eval (names : Names) (e : Option Expr) :
    Quiet (e.mapM (Expr.eval names)) := by
  cases e with
  | none => exact .pure none
  | some e => exact (e.quiet_eval names).bind fun v => .pure (some v)

/-! ## Items and fields -/

@[grind .] theorem Value.quiet_pick (items : List Value) (position : Int) :
    Quiet (Value.pick items position) := by
  unfold Value.pick
  grind

@[grind .] theorem Value.quiet_item (v key : Value) : Quiet (v.item key) := by
  unfold Value.item
  grind

@[grind .] theorem Value.quiet_holds (v key : Value) : Quiet (v.holds key) := by
  unfold Value.holds
  grind

@[grind .] theorem Value.quiet_document (v : Value) (d : Dot.Dialect) : Quiet (v.document d) := by
  unfold Value.document
  grind

@[grind .] theorem Act.quiet_viewGraph (g : Graph Value) (slot : GraphTable) :
    Quiet (viewGraph g slot) := by
  unfold viewGraph
  grind

@[grind .] theorem Act.quiet_viewContext (c : ContextId) (slot : ElementKind) :
    Quiet (viewContext c slot) := by
  unfold viewContext
  grind

/-- Looking at a field is quiet, and so is its operation, unless it sets attributes by a view of a
context. -/
theorem Value.quiet_field {v : Value} (active : Stack) {f : Field}
    (hv : ∀ i c slot, v = .contextView i c slot → f ≠ .attrs) : Quiet (v.field active f) := by
  unfold Value.field
  grind [Act.quiet_setAttrs]

end DotDoc
