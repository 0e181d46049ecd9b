import DotDoc.Proofs.Session.Elements
import DotDoc.Session.Call

set_option autoImplicit false

/-!
# Calls give known values

If all values that are stored under names are known, then so is what an argument describes
(`Expr.eval_gives`), what a field of a known value holds (`Value.field_gives`), and what a call
gives (`Act.perform_gives`). Calls are gone through by their topic (`Call.topic`).
-/

namespace DotDoc

variable {I : Registry → Nat → Prop} {σ τ : Registry} {α β : Type}

open Act (Gives Goes)

/-- All that is stored under names is known. -/
def Registry.KnowsNames (σ : Registry) (names : Names) : Prop :=
  ∀ n v, names.get? n = some v → σ.Knows v

theorem Registry.KnowsNames.mono {names : Names} (h : σ ≤ τ) (hn : σ.KnowsNames names) :
    τ.KnowsNames names :=
  fun n v hv => (hn n v hv).mono h

theorem Registry.KnowsNames.set {names : Names} (hn : σ.KnowsNames names) (n : String) {v : Value}
    (hv : σ.Knows v) : σ.KnowsNames (names.set n v) := by
  intro m u hu
  rw [Table.get?_set] at hu
  by_cases hm : m = n
  · rw [if_pos hm] at hu
    exact Option.some.inj hu ▸ hv
  · rw [if_neg hm] at hu
    exact hn m u hu

variable {names : Names}

theorem Names.read_gives (hn : σ.KnowsNames names) (n : String) :
    Gives I σ Registry.Knows (names.read n) := by
  unfold Names.read
  cases hv : names.get? n with
  | some v => exact .pure fun _ hτ => (hn n v hv).mono hτ
  | none => exact .throw _

theorem Names.readFor_gives (hn : σ.KnowsNames names) (p : Value → Bool) (n : String) :
    Gives I σ Registry.Knows (names.readFor p n) := by
  refine (Names.read_gives hn n).bind fun τ v _ hv => ?_
  split
  · exact .pure fun _ hυ => hv.mono hυ
  · exact .throw _

/-! ## Arguments -/

/-- The entries of a map are known. -/
def Registry.KnowsEntries (σ : Registry) (es : List (Value × Value)) : Prop :=
  ∀ e ∈ es, σ.Knows e.1 ∧ σ.Knows e.2

theorem Registry.KnowsEntries.mono {es : List (Value × Value)} (h : σ ≤ τ)
    (hes : σ.KnowsEntries es) : τ.KnowsEntries es :=
  fun e he => ⟨(hes e he).1.mono h, (hes e he).2.mono h⟩

theorem Registry.KnowsEntries.setEntry {es : List (Value × Value)} {k v : Value}
    (hes : σ.KnowsEntries es) (hk : σ.Knows k) (hv : σ.Knows v) :
    σ.KnowsEntries (Value.setEntry k v es) := by
  induction es with
  | nil =>
      intro e he
      obtain rfl := List.mem_singleton.1 he
      exact ⟨hk, hv⟩
  | cons e rest ih =>
      obtain ⟨k', v'⟩ := e
      have hhead := hes _ List.mem_cons_self
      have hrest : σ.KnowsEntries rest := fun e he => hes e (List.mem_cons_of_mem _ he)
      unfold Value.setEntry
      -- a known key keeps its place and its key, and only the value is new
      split
      · intro e he
        rcases List.mem_cons.1 he with rfl | he
        · exact ⟨hhead.1, hv⟩
        · exact hrest e he
      · intro e he
        rcases List.mem_cons.1 he with rfl | he
        · exact hhead
        · exact ih hrest e he

mutual

/-- **What an argument describes is known if what is stored under names is known.** -/
theorem Expr.eval_gives (hK : Registry.Keeps I) {σ : Registry} (hn : σ.KnowsNames names) :
    ∀ e : Expr, Gives I σ Registry.Knows (e.eval names)
  | .none => by
    rw [Expr.eval]
    exact .pure fun _ _ => .plain rfl nofun
  | .bool b => by
    rw [Expr.eval]
    exact .pure fun _ _ => .plain rfl nofun
  | .int i => by
    rw [Expr.eval]
    exact .pure fun _ _ => .plain rfl nofun
  | .text s => by
    rw [Expr.eval]
    exact .pure fun _ _ => .plain rfl nofun
  | .list items => by
    rw [Expr.eval]
    refine (evalItems_gives hK hn items).bind fun τ vs _ hvs => ?_
    refine (Act.goes_ident hK).after fun υ i hυ => ?_
    exact .pure fun _ hφ => .list fun v hv => (hvs v hv).mono (le_trans hυ hφ)
  | .name n => by
    rw [Expr.eval]
    exact Names.read_gives hn n
  | .markup e => by
    rw [Expr.eval]
    refine (Expr.eval_gives hK hn e).bind fun τ v _ _ => ?_
    exact v.goes_toText.after fun _ _ _ => .pure fun _ _ => .plain rfl nofun
  | .number text => by
    rw [Expr.eval]
    split
    · exact (Act.goes_ident hK).after fun _ _ _ => .pure fun _ _ => .plain rfl nofun
    · exact .throw _
  | .map entries => by
    rw [Expr.eval]
    refine (evalEntries_gives hK hn entries [] fun _ he => absurd he List.not_mem_nil).bind
      fun τ es _ hes => ?_
    refine (Act.goes_ident hK).after fun υ i hυ => ?_
    exact .pure fun _ hφ => .map (hes.mono (le_trans hυ hφ))

theorem evalItems_gives (hK : Registry.Keeps I) {σ : Registry} (hn : σ.KnowsNames names) :
    ∀ es : List Expr, Gives I σ (fun τ vs => ∀ v ∈ vs, τ.Knows v) (evalItems names es)
  | [] => by
    rw [evalItems]
    exact .pure fun _ _ v hv => absurd hv List.not_mem_nil
  | e :: rest => by
    rw [evalItems]
    refine (Expr.eval_gives hK hn e).bind fun τ v hτ hv => ?_
    refine (evalItems_gives hK (hn.mono hτ) rest).bind fun υ vs hυ hvs => ?_
    refine .pure fun φ hφ u hu => ?_
    rcases List.mem_cons.1 hu with rfl | hu
    · exact hv.mono (le_trans hυ hφ)
    · exact (hvs u hu).mono hφ

theorem evalEntries_gives (hK : Registry.Keeps I) {σ : Registry} (hn : σ.KnowsNames names) :
    ∀ (es : List (Expr × Expr)) (done : List (Value × Value)), σ.KnowsEntries done →
      Gives I σ Registry.KnowsEntries (evalEntries names done es)
  | [], done => fun hdone => by
    rw [evalEntries]
    exact .pure fun _ hτ => hdone.mono hτ
  | (k, e) :: rest, done => fun hdone => by
    rw [evalEntries]
    refine (Expr.eval_gives hK hn k).bind fun τ key hτ hkey => ?_
    refine (Expr.eval_gives hK (hn.mono hτ) e).bind fun υ v hυ hv => ?_
    split
    · exact evalEntries_gives hK (hn.mono (le_trans hτ hυ)) rest _
        ((hdone.mono (le_trans hτ hυ)).setEntry (hkey.mono hυ) hv)
    · exact .throw _

end

theorem evalOr_gives (hK : Registry.Keeps I) (hn : σ.KnowsNames names) (e : Option Expr)
    {missing : Value} (hm : σ.Knows missing) :
    Gives I σ Registry.Knows (evalOr names e missing) := by
  cases e with
  | none => exact .pure fun _ hτ => hm.mono hτ
  | some e => exact Expr.eval_gives hK hn e

theorem evalOr_none_gives (hK : Registry.Keeps I) (hn : σ.KnowsNames names) (e : Option Expr) :
    Gives I σ Registry.Knows (evalOr names e .none) :=
  evalOr_gives hK hn e (.plain rfl nofun)

theorem evalOr_blank_gives (hK : Registry.Keeps I) (hn : σ.KnowsNames names) (e : Option Expr) :
    Gives I σ Registry.Knows (evalOr names e (.text "")) :=
  evalOr_gives hK hn e (.plain rfl nofun)

/-- The port that is called, or the one that is nowhere. -/
theorem port_gives (hn : σ.KnowsNames names) (on : Option String) :
    Gives I σ Registry.Knows (on.elim (return .port .nowhere) (names.readFor Value.hasPort)) := by
  cases on with
  | none => exact .pure fun _ _ => .nowhere
  | some n => exact Names.readFor_gives hn _ n

theorem goes_evalNamed (hK : Registry.Keeps I) (hn : σ.KnowsNames names) (named : Named) :
    Goes I σ (evalNamed names named) := by
  unfold evalNamed
  have hargument : ∀ e ∈ named, ∀ τ, σ ≤ τ → Goes I τ (do return (e.1, ← e.2.eval names)) :=
    fun e _ τ hτ => (Expr.eval_gives hK (hn.mono hτ) e.2).goes.after fun _ _ _ => Act.goes_pure _
  refine (Gives.mapM (fun _ _ => trivial) hargument).goes.after fun _ _ _ => ?_
  exact Act.goes_pure _

theorem goes_splitArgument (own : String) (given : Option Value) (named : List (String × Value)) :
    Goes I σ (splitArgument own given named) := by
  unfold splitArgument
  split
  · exact Act.goes_pure _
  · exact Act.goes_pure _
  · exact .throw _

theorem goes_refuseNames (kept : List String) (named : List (String × Value)) :
    Goes I σ (refuseNames kept named) := by
  unfold refuseNames
  split
  · exact .throw _
  · exact Act.goes_pure _

theorem goes_mapOfNamed (hK : Registry.Keeps I) (named : List (String × Value)) :
    Goes I σ (mapOfNamed named) :=
  (Act.goes_ident hK).after fun _ _ _ => Act.goes_pure _

/-- An argument that may be missing altogether. -/
theorem goes_mapM_eval (hK : Registry.Keeps I) (hn : σ.KnowsNames names) (e : Option Expr) :
    Goes I σ (e.mapM (Expr.eval names)) := by
  cases e with
  | none => exact Act.goes_pure _
  | some e => exact (Expr.eval_gives hK hn e).goes.after fun _ _ _ => Act.goes_pure _

/-- Arguments of which one has a name of its own, and may be given by that name or without it. -/
theorem Act.Gives.given (hK : Registry.Keeps I) (hn : σ.KnowsNames names) (own : String)
    (item : Option Expr) (named : Named) {P : Registry → α → Prop}
    {k : Option Value × List (String × Value) → Act α}
    (hk : ∀ τ split, σ ≤ τ → Gives I τ P (k split)) :
    Gives I σ P (do
      let item ← item.mapM (Expr.eval names)
      let named ← evalNamed names named
      k (← splitArgument own item named)) := by
  refine (goes_mapM_eval hK hn item).after fun τ v hτ => ?_
  refine (goes_evalNamed hK (hn.mono hτ) named).after fun υ vs hυ => ?_
  refine (goes_splitArgument own v vs).after fun φ split hφ => ?_
  exact hk φ split (le_trans hτ (le_trans hυ hφ))

/-! ## Items and fields -/

theorem Value.pick_gives {items : List Value} (hi : ∀ v ∈ items, σ.Knows v) (position : Int) :
    Gives I σ Registry.Knows (Value.pick items position) := by
  unfold Value.pick
  split
  · rename_i v hv
    obtain ⟨i, -, hv⟩ := Option.bind_eq_some_iff.1 hv
    exact .pure fun _ hτ => (hi v (List.mem_of_getElem? hv)).mono hτ
  · exact .throw _

/-- What a known value holds at a key or position is known. -/
theorem Value.item_gives {v : Value} (key : Value) (hv : σ.Knows v) :
    Gives I σ Registry.Knows (v.item key) := by
  have hattr : ∀ {τ : Registry} (a : AttrValue), τ.Knows (.ofAttr a) := by
    intro τ a
    cases a <;> exact .plain rfl nofun
  unfold Value.item
  split
  · rename_i t
    split
    · refine .checked ?_
      cases t.get? _ with
      | none => exact .throw _
      | some a => exact .pure fun _ _ => hattr a
    · exact .checked (.throw _)
  · rename_i i entries
    refine .checked ?_
    cases hf : entries.find? fun e => Value.same e.1 key with
    | none => exact .throw _
    | some e => exact .pure fun _ hτ => (hv.part (.entry (List.mem_of_find?_eq_some hf))).mono hτ
  · cases key.position? with
    | none => exact .throw _
    | some i => exact pick_gives (fun u hu => hv.part (.item hu)) i
  · cases key.position? with
    | none => exact .throw _
    | some i =>
        apply pick_gives
        intro u hu
        obtain ⟨c, -, rfl⟩ := List.mem_map.1 hu
        exact .plain rfl nofun
  · exact .throw _

theorem Value.goes_holds (v key : Value) : Goes I σ (v.holds key) := by
  unfold Value.holds
  split
  · split
    · exact .checked (Act.goes_pure _)
    · exact .checked (Act.goes_pure _)
  · exact .checked (Act.goes_pure _)
  · exact Act.goes_pure _
  · split
    · exact Act.goes_pure _
    · exact .throw _
  · exact .throw _

theorem Value.knows_members {v : Value} {f : Field} {members : List Value} (hv : σ.Knows v)
    (h : v.members? f = some members) : ∀ u ∈ members, σ.Knows u := by
  unfold Value.members? at h
  split at h
  · cases h
    exact List.forall_mem_map.2 fun l hl => hv.part (.nodeLink hl)
  · cases h
    exact List.forall_mem_map.2 fun n hn => hv.part (.graphNode hn)
  · cases h
    exact List.forall_mem_map.2 fun s hs => hv.part (.subgraph hs)
  · cases h
    exact List.forall_mem_map.2 fun l hl => hv.part (.graphLink hl)
  · cases h

/-- A known graph with its name or flags changed is a draft. -/
theorem Registry.Knows.draft_flags {g : Graph Value} (hg : σ.Knows (.graph g)) (name : Label)
    (directed strict : Bool) : σ.Draft { g with name, directed, strict } :=
  Registry.draft_of (fun _ h => hg.part (.graphNode h)) (fun _ h => hg.part (.subgraph h))
    (fun _ h => hg.part (.graphLink h)) fun hσ =>
      ⟨(hg.indexed hσ).nodes, (hg.indexed hσ).subgraphs, (hg.indexed hσ).links⟩

theorem Registry.knows_context? (c : Option ContextId) :
    σ.Knows (c.elim .none .context) := by
  cases c <;> exact .plain rfl nofun

/-- **What a field of a known value holds is known, and so is what its operation gives.** -/
theorem Value.field_gives (hK : Registry.Keeps I) {v : Value} (active : Stack) (f : Field)
    (hv : σ.Knows v) : Gives I σ Registry.Knows (v.field active f) := by
  have hnone : ∀ {τ : Registry}, τ.Knows .none := .plain rfl nofun
  unfold Value.field
  split
  -- Most fields hold plain data.
  all_goals try (refine .pure fun _ _ => .plain rfl fun _ h => ?_; cases h; done)
  · exact .pure fun _ hτ => (hv.part (.record _)).mono hτ
  · rename_i p
    cases p.compass <;> exact .pure fun _ _ => .plain rfl nofun
  · exact .pure fun _ hτ => (hv.part (.anchor _)).mono hτ
  · exact .pure fun _ hτ => (hv.part (.place _)).mono hτ
  · exact .pure fun _ hτ => (hv.part (.target _)).mono hτ
  · exact .pure fun _ hτ => (hv.part (.sourcePort _)).mono hτ
  · refine (Act.newPort_gives hK _ hnone).bind fun τ p hτ hp => ?_
    refine (Gives.make (Node.pointAt_gives hK (hv.mono hτ) hp)).bind fun υ q _ hq => ?_
    exact .pure fun _ hφ => hq.mono hφ
  · exact (Act.goes_ident hK).after fun _ i hτ => .pure fun _ hυ =>
      .graphView i _ (hv.mono (le_trans hτ hυ))
  · exact Act.changeGraph_gives hK (hv.draft_flags _ _ _)
  · exact Act.changeGraph_gives hK (hv.draft_flags _ _ _)
  · exact Act.changeGraph_gives hK (hv.draft_flags _ _ _)
  · exact Act.addNodes_gives hK hv fun _ h => absurd h List.not_mem_nil
  · exact Act.addSubgraphs_gives hK hv fun _ h => absurd h List.not_mem_nil
  · exact Act.goes_get.after fun _ _ _ => .pure fun _ _ => .plain rfl nofun
  · exact Act.goes_get.after fun _ _ _ => .pure fun _ _ => .plain rfl nofun
  · exact Act.goes_get.after fun _ _ _ => .pure fun _ _ => .plain rfl nofun
  · exact Act.goes_get.after fun _ _ _ => .pure fun _ _ => .plain rfl nofun
  · exact (Act.goes_ident hK).after fun _ _ _ => .pure fun _ _ => .plain rfl nofun
  · exact (Act.goes_ident hK).after fun _ _ _ => .pure fun _ _ => .plain rfl nofun
  · exact (Act.goes_ident hK).after fun _ _ _ => .pure fun _ _ => .plain rfl nofun
  · exact .pure fun _ _ => Registry.knows_context? _
  · exact Act.setAttrs_gives hK _ _ hv
  · exact Act.addLinks_gives hK active hv fun _ h => absurd h List.not_mem_nil
  · exact Act.endpoint_gives hK hv
  · exact .throw _

/-! ## What calls are about -/

/-- What a call can be about: labels and tables, ports, nodes and graphs, links, the members of
elements, their attributes and flags, contexts, values as they are, and text. -/
inductive Topic where
  | tables | ports | elements | links | members | updates | contexts | inspection | output

/-- What the call is about. Calls about the same are looked at together. -/
def Call.topic : Call → Topic
  | label .. | labelOf _ | markup _ | attributes .. | withAttr .. | merge .. | lookup ..
  | contains .. | abstractAttr .. => .tables
  | compassOf _ | port .. | record .. | compass .. | nodePort .. => .ports
  | node .. | graph .. | newNode .. | newGraph .. | chain .. | nest .. => .elements
  | linkTo .. | between .. | newLink .. | linkOf _ | point .. | foreignTarget _
  | abstractTarget => .links
  | link .. | addNodes .. | addGraphs .. | endpoint _ => .members
  | attr .. | attrs .. | directed .. | strict .. | named .. | view .. => .updates
  | newContext | current | defaults => .contexts
  | get _ | field .. | debug _ | text _ | same .. | equal .. | distinct _ => .inspection
  | serialize _ | serializeTwice _ | serializeWith .. | source .. => .output

/-! ## Carrying out -/

theorem Value.goes_document (v : Value) (d : Dot.Dialect) : Goes I σ (v.document d) := by
  unfold Value.document
  split
  · exact Act.goes_serialize _ _
  · exact Act.gives_refuse _ _

/-- What is stored for a result is known. -/
def Registry.KnowsAnswer (σ : Registry) (a : Answer) : Prop := σ.Knows a.stored

namespace Act

/-- A value as the answer. -/
theorem Gives.answer {a : Act α} {f : α → Value}
    (ha : Gives I σ (fun τ x => τ.Knows (f x)) a) :
    Gives I σ Registry.KnowsAnswer (do return .value (f (← a))) :=
  ha.bind fun _ _ _ h => .pure fun _ hτ => h.mono hτ

/-- Plain data as the answer. -/
theorem Goes.answer {a : Act α} {f : α → Value} (ha : Goes I σ a)
    (hf : ∀ (τ : Registry) x, τ.Knows (f x)) :
    Gives I σ Registry.KnowsAnswer (do return .value (f (← a))) :=
  Gives.answer (ha.mono fun τ x _ _ => hf τ x)

/-! ### Calls about each topic

What is known when an argument is evaluated is still known when the call is carried out. -/

theorem perform_gives_tables (hK : Registry.Keeps I) (active : Stack) (hn : σ.KnowsNames names)
    {c : Call} (hc : c.topic = .tables) :
    Gives I σ Registry.KnowsAnswer (perform active names c) := by
  cases c with
  | label v markup =>
      refine (evalOr_blank_gives hK hn v).bind fun τ u _ _ => ?_
      exact u.goes_toText.after fun _ _ _ => .pure fun _ _ => .plain rfl nofun
  | labelOf v =>
      refine (v.eval_gives hK hn).bind fun τ u _ _ => ?_
      exact Goes.answer (f := .label) u.goes_toLabel fun _ _ => .plain rfl nofun
  | markup text =>
      refine (text.eval_gives hK hn).bind fun τ u _ _ => ?_
      exact u.goes_toText.after fun _ _ _ => .pure fun _ _ => .plain rfl nofun
  | attributes items named =>
      refine .given hK hn "items" items named fun τ split _ => ?_
      refine (goes_refuseNames ["self"] split.2).after fun υ _ _ => ?_
      exact Goes.answer (f := .table) (AttrTable.goes_ofGiven _ _) fun _ _ => .plain rfl nofun
  | withAttr on key v =>
      refine (Names.readFor_gives hn _ on).bind fun τ owner hτ ho => ?_
      cases owner with
      | table t =>
          refine (key.eval_gives hK (hn.mono hτ)).bind fun υ k hυ _ => ?_
          refine (v.eval_gives hK (hn.mono (le_trans hτ hυ))).bind fun φ u _ _ => ?_
          exact Goes.answer (f := .table) (t.goes_withAttr k u) fun _ _ => .plain rfl nofun
      | _ => exact .throw _
  | merge on other =>
      refine (Names.readFor_gives hn _ on).bind fun τ v hτ hv => ?_
      refine (other.eval_gives hK (hn.mono hτ)).bind fun υ o hυ ho => ?_
      exact Gives.answer (f := id) (merge_gives hK (hv.mono hυ) ho)
  | lookup on key =>
      refine (Names.read_gives hn on).bind fun τ v hτ hv => ?_
      refine (key.eval_gives hK (hn.mono hτ)).bind fun υ k hυ _ => ?_
      exact (v.item_gives k (hv.mono hυ)).bind fun _ _ _ h => .pure fun _ hφ => h.mono hφ
  | contains on key =>
      refine (key.eval_gives hK hn).bind fun τ k hτ _ => ?_
      refine (Names.read_gives (hn.mono hτ) on).bind fun υ v _ _ => ?_
      exact Goes.answer (f := .bool) (v.goes_holds k) fun _ _ => .plain rfl nofun
  | abstractAttr key v =>
      refine (key.eval_gives hK hn).bind fun τ k hτ _ => ?_
      refine (v.eval_gives hK (hn.mono hτ)).bind fun υ u _ _ => ?_
      exact (AttrTable.goes_withAttr ∅ k u).after fun _ _ _ => .throw _
  | _ => cases hc

theorem perform_gives_ports (hK : Registry.Keeps I) (active : Stack) (hn : σ.KnowsNames names)
    {c : Call} (hc : c.topic = .ports) :
    Gives I σ Registry.KnowsAnswer (perform active names c) := by
  cases c with
  | compassOf direction =>
      refine (direction.eval_gives hK hn).bind fun τ u _ _ => ?_
      exact Goes.answer (f := .compass) u.goes_toCompass fun _ _ => .plain rfl nofun
  | port record compass =>
      refine (evalOr_none_gives hK hn record).bind fun τ r hτ hr => ?_
      refine (evalOr_none_gives hK (hn.mono hτ) compass).bind fun υ c hυ _ => ?_
      exact Gives.answer (f := .port) (newPort_gives hK c (hr.mono hυ))
  | record on name =>
      refine (port_gives hn on).bind fun τ v hτ hv => ?_
      refine (name.eval_gives hK (hn.mono hτ)).bind fun υ r hυ hr => ?_
      exact Gives.answer (f := id) (atRecord_gives hK (hv.mono hυ) hr)
  | compass on direction =>
      refine (port_gives hn on).bind fun τ v hτ hv => ?_
      refine (direction.eval_gives hK (hn.mono hτ)).bind fun υ d hυ _ => ?_
      exact Gives.answer (f := id) (atSide_gives hK d (hv.mono hυ))
  | nodePort on record compass =>
      refine (Names.readFor_gives hn _ on).bind fun τ v hτ hv => ?_
      refine (evalOr_none_gives hK (hn.mono hτ) record).bind fun υ r hυ hr => ?_
      refine (evalOr_none_gives hK (hn.mono (le_trans hτ hυ)) compass).bind fun φ c hφ _ => ?_
      cases v with
      | node n =>
          refine (newPort_gives hK c (hr.mono hφ)).bind fun χ p hχ hp => ?_
          exact Gives.answer (f := .point) (.make (Node.pointAt_gives hK
            (hv.mono (le_trans hυ (le_trans hφ hχ))) hp))
      | _ => exact .throw _
  | _ => cases hc

theorem perform_gives_elements (hK : Registry.Keeps I) (active : Stack) (hn : σ.KnowsNames names)
    {c : Call} (hc : c.topic = .elements) :
    Gives I σ Registry.KnowsAnswer (perform active names c) := by
  cases c with
  | node name named =>
      refine .given hK hn "name" name named fun τ split _ => ?_
      refine (goes_mapOfNamed hK split.2).after fun υ attrs _ => ?_
      exact Gives.answer (f := .node) (newNode_gives hK active _ attrs)
  | graph name named =>
      refine .given hK hn "name" name named fun τ split _ => ?_
      refine (goes_mapOfNamed hK split.2).after fun υ attrs _ => ?_
      exact Gives.answer (f := .graph) (newGraph_gives hK active _ _ _ attrs)
  | newNode name attrs =>
      refine (evalOr_blank_gives hK hn name).bind fun τ n hτ _ => ?_
      refine (evalOr_none_gives hK (hn.mono hτ) attrs).bind fun υ a _ _ => ?_
      exact Gives.answer (f := .node) (newNode_gives hK active n a)
  | newGraph name directed strict attrs =>
      refine (evalOr_blank_gives hK hn name).bind fun τ n hτ _ => ?_
      refine (evalOr_none_gives hK (hn.mono hτ) attrs).bind fun υ a _ _ => ?_
      exact Gives.answer (f := .graph) (newGraph_gives hK active n directed strict a)
  | chain stem count => exact Gives.answer (f := .node) (chain_gives hK active stem count)
  | nest stem count => exact Gives.answer (f := .graph) (nest_gives hK active stem count)
  | _ => cases hc

theorem perform_gives_links (hK : Registry.Keeps I) (active : Stack) (hn : σ.KnowsNames names)
    {c : Call} (hc : c.topic = .links) :
    Gives I σ Registry.KnowsAnswer (perform active names c) := by
  cases c with
  | linkTo target attrs =>
      refine (target.eval_gives hK hn).bind fun τ t hτ ht => ?_
      refine (evalOr_none_gives hK (hn.mono hτ) attrs).bind fun υ a hυ _ => ?_
      exact Gives.answer (f := .link)
        (newLink_gives hK active a (ht.mono hυ) (.plain rfl nofun))
  | between source target attrs =>
      refine (source.eval_gives hK hn).bind fun τ s hτ hs => ?_
      refine (target.eval_gives hK (hn.mono hτ)).bind fun υ t hυ ht => ?_
      refine (evalOr_none_gives hK (hn.mono (le_trans hτ hυ)) attrs).bind fun φ a hφ _ => ?_
      exact Gives.answer (f := .link)
        (newLink_gives hK active a (ht.mono hφ) (hs.mono (le_trans hυ hφ)))
  | newLink target sourcePort attrs =>
      refine (target.eval_gives hK hn).bind fun τ t hτ ht => ?_
      refine (evalOr_none_gives hK (hn.mono hτ) sourcePort).bind fun υ p hυ hp => ?_
      refine (evalOr_none_gives hK (hn.mono (le_trans hτ hυ)) attrs).bind fun φ a hφ _ => ?_
      exact Gives.answer (f := .link)
        (newLink_gives hK active a (ht.mono (le_trans hυ hφ)) (hp.mono hφ))
  | linkOf target =>
      refine (target.eval_gives hK hn).bind fun τ t _ ht => ?_
      exact Gives.answer (f := .link) (toLink_gives hK active ht)
  | point anchor place =>
      refine (anchor.eval_gives hK hn).bind fun τ a hτ ha => ?_
      refine (evalOr_gives hK (hn.mono hτ) place .nowhere).bind fun υ p hυ hp => ?_
      exact Gives.answer (f := .point)
        (.make (NodePoint.make_gives hK (ha.mono hυ).toAnchor hp.toPlace))
  | foreignTarget name =>
      exact (goes_ident hK).after fun _ _ _ => .pure fun _ _ => .plain rfl nofun
  | abstractTarget => exact .throw _
  | _ => cases hc

theorem perform_gives_members (hK : Registry.Keeps I) (active : Stack) (hn : σ.KnowsNames names)
    {c : Call} (hc : c.topic = .members) :
    Gives I σ Registry.KnowsAnswer (perform active names c) := by
  cases c with
  | link on targets =>
      refine (Names.readFor_gives hn _ on).bind fun τ v hτ hv => ?_
      refine (evalItems_gives hK (hn.mono hτ) targets).bind fun υ ts hυ hts => ?_
      exact Gives.answer (f := id) (addLinks_gives hK active (hv.mono hυ) hts)
  | addNodes on nodes =>
      refine (Names.readFor_gives hn _ on).bind fun τ v hτ hv => ?_
      refine (evalItems_gives hK (hn.mono hτ) nodes).bind fun υ ns hυ hns => ?_
      cases v with
      | graph g => exact Gives.answer (f := id) (addNodes_gives hK (hv.mono hυ) hns)
      | _ => exact .throw _
  | addGraphs on graphs =>
      refine (Names.read_gives hn on).bind fun τ v hτ hv => ?_
      cases v with
      | graph g =>
          refine (evalItems_gives hK (hn.mono hτ) graphs).bind fun υ gs hυ hgs => ?_
          exact Gives.answer (f := id) (addSubgraphs_gives hK (hv.mono hυ) hgs)
      | _ => exact .throw _
  | endpoint on =>
      refine (Names.read_gives hn on).bind fun τ v _ hv => ?_
      exact Gives.answer (f := id) (endpoint_gives hK hv)
  | _ => cases hc

theorem perform_gives_updates (hK : Registry.Keeps I) (active : Stack) (hn : σ.KnowsNames names)
    {c : Call} (hc : c.topic = .updates) :
    Gives I σ Registry.KnowsAnswer (perform active names c) := by
  cases c with
  | attr on key v =>
      refine (Names.readFor_gives hn _ on).bind fun τ owner hτ ho => ?_
      refine (key.eval_gives hK (hn.mono hτ)).bind fun υ k hυ _ => ?_
      refine (v.eval_gives hK (hn.mono (le_trans hτ hυ))).bind fun φ u hφ _ => ?_
      exact Gives.answer (f := id) (setAttr_gives hK k u (ho.mono (le_trans hυ hφ)))
  | attrs on items named =>
      refine (Names.readFor_gives hn _ on).bind fun τ owner hτ ho => ?_
      refine .given hK (hn.mono hτ) "attrs" items named fun υ split hυ => ?_
      refine (goes_refuseNames ["self", "items"] split.2).after fun φ _ hφ => ?_
      exact Gives.answer (f := id) (setAttrs_gives hK _ _ (ho.mono (le_trans hυ hφ)))
  | directed on v =>
      refine (Names.read_gives hn on).bind fun τ u _ hu => ?_
      cases u with
      | graph g => exact Gives.answer (f := id) (changeGraph_gives hK (hu.draft_flags _ _ _))
      | _ => exact .throw _
  | strict on v =>
      refine (Names.read_gives hn on).bind fun τ u _ hu => ?_
      cases u with
      | graph g => exact Gives.answer (f := id) (changeGraph_gives hK (hu.draft_flags _ _ _))
      | _ => exact .throw _
  | named on name =>
      refine (Names.read_gives hn on).bind fun τ u hτ hu => ?_
      cases u with
      | graph g =>
          refine (name.eval_gives hK (hn.mono hτ)).bind fun υ l hυ _ => ?_
          refine l.goes_toLabel.after fun φ label hφ => ?_
          exact Gives.answer (f := id)
            (changeGraph_gives hK ((hu.mono (le_trans hυ hφ)).draft_flags _ _ _))
      | _ => exact .throw _
  | view on view =>
      refine (Names.read_gives hn on).bind fun τ v _ hv => ?_
      split
      · exact Gives.answer (f := id) ((goes_ident hK).after fun υ i hυ => .pure fun _ hφ =>
          .graphView i _ (hv.mono (le_trans hυ hφ)))
      · exact Gives.answer (f := id) ((goes_ident hK).after fun _ _ _ => .pure fun _ _ =>
          .plain rfl nofun)
      · exact .throw _
  | _ => cases hc

theorem perform_gives_contexts (hK : Registry.Keeps I) (active : Stack) {c : Call}
    (hc : c.topic = .contexts) :
    Gives I σ Registry.KnowsAnswer (perform active names c) := by
  cases c with
  | newContext => exact Goes.answer (f := .context) (goes_newContext hK) fun _ _ => .plain rfl nofun
  | current => exact .pure fun _ _ => Registry.knows_context? _
  | defaults => exact (goes_defaults active).after fun _ _ _ => .pure fun _ _ => .plain rfl nofun
  | _ => cases hc

theorem perform_gives_inspection (hK : Registry.Keeps I) (active : Stack) (hn : σ.KnowsNames names)
    {c : Call} (hc : c.topic = .inspection) :
    Gives I σ Registry.KnowsAnswer (perform active names c) := by
  cases c with
  | get on => exact Gives.answer (f := id) (Names.read_gives hn on)
  | field on field index =>
      refine (Names.read_gives hn on).bind fun τ v _ hv => ?_
      cases hm : v.members? field with
      | none => exact Gives.answer (f := id) (v.field_gives hK active field hv)
      | some members =>
          -- all members make up a new list, and one of them is given as it is
          have hmembers := v.knows_members hv hm
          cases index with
          | some i => exact Gives.answer (f := id) (Value.pick_gives hmembers i)
          | none =>
              refine (goes_ident hK).after fun υ i hυ => .pure fun φ hφ => .list fun u hu => ?_
              exact (hmembers u hu).mono (le_trans hυ hφ)
  | debug v =>
      refine (v.eval_gives hK hn).bind fun τ u _ _ => ?_
      exact Goes.answer (f := .text) (goes_debug u) fun _ _ => .plain rfl nofun
  | text v =>
      refine (v.eval_gives hK hn).bind fun τ u _ _ => ?_
      exact Goes.answer (f := .text) u.goes_toText fun _ _ => .plain rfl nofun
  | same a b =>
      refine (a.eval_gives hK hn).bind fun τ u hτ _ => ?_
      refine (b.eval_gives hK (hn.mono hτ)).bind fun υ v _ _ => ?_
      exact .pure fun _ _ => .plain rfl nofun
  | equal a b =>
      refine (a.eval_gives hK hn).bind fun τ u hτ _ => ?_
      refine (b.eval_gives hK (hn.mono hτ)).bind fun υ v _ _ => ?_
      exact .pure fun _ _ => .plain rfl nofun
  | distinct items =>
      refine (evalItems_gives hK hn items).bind fun τ vs _ _ => ?_
      split
      · exact .pure fun _ _ => .plain rfl nofun
      · exact .throw _
  | _ => cases hc

theorem perform_gives_output (hK : Registry.Keeps I) (active : Stack) (hn : σ.KnowsNames names)
    {c : Call} (hc : c.topic = .output) :
    Gives I σ Registry.KnowsAnswer (perform active names c) := by
  cases c with
  | serialize graph =>
      refine (graph.eval_gives hK hn).bind fun τ u _ _ => ?_
      exact Goes.answer (f := .text) (u.goes_document _) fun _ _ => .plain rfl nofun
  | serializeTwice on =>
      refine (Names.read_gives hn on).bind fun τ v _ _ => ?_
      refine (v.goes_document _).after fun υ first _ => ?_
      refine (v.goes_document _).after fun φ second _ => ?_
      refine (goes_ident hK).after fun χ i _ => .pure fun _ _ => .list fun u hu => ?_
      rcases List.mem_cons.1 hu with rfl | hu
      · exact .plain rfl nofun
      · rw [List.mem_singleton.1 hu]
        exact .plain rfl nofun
  | serializeWith on dialect =>
      refine (Names.read_gives hn on).bind fun τ u _ _ => ?_
      exact Goes.answer (f := .text) (u.goes_document _) fun _ _ => .plain rfl nofun
  | source on filename format engine =>
      refine (Names.read_gives hn on).bind fun τ u _ _ => ?_
      refine (u.goes_document _).after fun υ text _ => ?_
      exact .pure fun _ _ => .plain rfl nofun
  | _ => cases hc

/-- **What a call gives is known if what is stored under names is known.** -/
theorem perform_gives (hK : Registry.Keeps I) (active : Stack) (hn : σ.KnowsNames names)
    (c : Call) : Gives I σ Registry.KnowsAnswer (perform active names c) := by
  cases hc : c.topic with
  | tables => exact perform_gives_tables hK active hn hc
  | ports => exact perform_gives_ports hK active hn hc
  | elements => exact perform_gives_elements hK active hn hc
  | links => exact perform_gives_links hK active hn hc
  | members => exact perform_gives_members hK active hn hc
  | updates => exact perform_gives_updates hK active hn hc
  | contexts => exact perform_gives_contexts hK active hc
  | inspection => exact perform_gives_inspection hK active hn hc
  | output => exact perform_gives_output hK active hn hc

end Act

end DotDoc
