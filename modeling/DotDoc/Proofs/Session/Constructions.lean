import DotDoc.Proofs.Session.History

set_option autoImplicit false

/-!
# How elements start out

A node, graph or link starts out with the explicit attributes laid over the defaults of its kind
that are in effect where it is constructed (`Construction.yields_carryOut`). The calls that take
attributes for an element tell what their arguments are and carry out one construction
(`Act.perform_construction`). Other calls construct links, chains and nests, which start out with
the bare defaults (`Act.yields_toLink`, `Act.yields_chain`, `Act.yields_nest`).

No other call looks at the active contexts, unless it is asked about them (`Act.perform_unread`).
-/

namespace DotDoc

open Act (Quiet Yields)

variable {cs : Contexts} {α β : Type}

/-! ## What is given for attributes -/

/-- The contexts alone determine what the action gives. -/
def Act.Determined (a : Act α) : Prop :=
  ∀ w w' : World, w.contexts = w'.contexts → (a.run w).1 = (a.run w').1

theorem Act.Determined.pure (x : α) : Determined (Pure.pure x : Act α) := fun _ _ _ => rfl

theorem Act.Determined.throw (e : Failure) : Determined (MonadExcept.throw e : Act α) :=
  fun _ _ _ => rfl

theorem Act.Determined.bind {a : Act α} {f : α → Act β} (ha : Determined a) (hquiet : Quiet a)
    (hf : ∀ x, Determined (f x)) : Determined (a >>= f) := by
  intro w w' h
  rw [run_bind, run_bind, ← ha w w' h]
  cases (a.run w).1 with
  | error e => rfl
  | ok x => exact hf x _ _ ((hquiet w).trans (h.trans (hquiet w').symm))

theorem Act.Determined.mapM {f : α → Act β} (hf : ∀ x, Determined (f x))
    (hquiet : ∀ x, Quiet (f x)) (xs : List α) : Determined (xs.mapM f) := by
  induction xs with
  | nil => exact .pure []
  | cons x rest ih =>
      rw [List.mapM_cons]
      refine (hf x).bind (hquiet x) fun y => ?_
      exact ih.bind (.mapM hquiet rest) fun ys => .pure (y :: ys)

theorem Act.determined_debug (v : Value) : Determined (debug v) := fun _ _ h =>
  congrArg (fun cs => Except.ok (v.debug cs)) h

theorem Act.determined_serialize (g : Graph Value) (d : Dot.Dialect) :
    Determined (serialize g d) := by
  unfold serialize
  split
  · exact fun _ _ _ => rfl
  · exact .throw _

/-- The text of a value may show what contexts hold. -/
theorem Value.determined_toText (v : Value) : Act.Determined v.toText := by
  unfold Value.toText
  split
  · exact .pure _
  · exact .pure _
  · exact .pure _
  · exact Act.determined_serialize _ _
  · exact Act.determined_debug _

theorem Value.determined_toAttr (v : Value) : Act.Determined v.toAttr := by
  unfold Value.toAttr
  split
  · exact .pure _
  · exact .pure _
  · exact (Value.determined_toText _).bind (Value.quiet_toText _) fun _ => .pure _

namespace AttrTable

theorem determined_convertEntries (es : List (Value × Value)) :
    Act.Determined (convertEntries es) := by
  refine .mapM (fun e => ?_) (fun e => quiet_convertEntry e.1 e.2) es
  refine (Value.determined_toAttr e.2).bind (Value.quiet_toAttr e.2) fun a => ?_
  exact (Value.determined_toText e.1).bind (Value.quiet_toText e.1) fun k => .pure (k, a)

theorem determined_ofGiven (items : Value) (named : List (String × Value)) :
    Act.Determined (ofGiven items named) := by
  have hgiven : Act.Determined (givenEntries items) := by
    unfold givenEntries
    split
    · exact .pure []
    · split
      · exact determined_convertEntries _
      · exact .pure _
      · exact .throw _
  refine hgiven.bind (quiet_givenEntries items) fun first => ?_
  exact (determined_convertEntries _).bind (quiet_convertEntries _) fun second => .pure _

end AttrTable

namespace Contexts

/-- Where the contexts are these, what is given for attributes stands for this table. -/
def Explicit (cs : Contexts) (attrs : Value) (own : AttrTable) : Prop :=
  ∀ w : World, w.contexts = cs → ((AttrTable.ofGiven attrs []).run w).1 = .ok own

/-- Nothing stands for the empty table. -/
theorem Explicit.eq_empty {own : AttrTable} (h : cs.Explicit .none own) : own = ∅ :=
  (Except.ok.inj (h ⟨0, cs, []⟩ rfl)).symm

end Contexts

theorem Act.yields_ofGiven (attrs : Value) :
    Yields cs (cs.Explicit attrs) (AttrTable.ofGiven attrs []) := by
  intro w hw own hown w' hw'
  rw [← hown]
  exact AttrTable.determined_ofGiven attrs [] w' w (hw'.trans hw.symm)

/-! ## Elements and defaults -/

/-- The kind of an element, and its attributes. -/
def Value.element? : Value → Option (ElementKind × AttrTable)
  | .node n => some (.node, n.attrs)
  | .link l => some (.link, l.attrs)
  | .graph g => some (.graph, g.attrs)
  | _ => Option.none

/-- The value is an element of the kind, and its attributes are the explicit ones laid over the
defaults. -/
def Value.StartsOut (v : Value) (kind : ElementKind) (defaults own : AttrTable) : Prop :=
  ∃ t, v.element? = some (kind, t) ∧ Table.LaidOver defaults own t

/-- The defaults in effect: those of the innermost active context. -/
def Contexts.effective (cs : Contexts) (active : Stack) (kind : ElementKind) : AttrTable :=
  match active with
  | [] => ∅
  | c :: _ => cs.table c kind

namespace Act

theorem yields_defaults (active : Stack) :
    Yields cs (fun d => ∀ kind, d.get kind = cs.effective active kind) (defaults active) := by
  intro w hw d hd
  cases active with
  | nil =>
      cases hd
      exact fun kind => by cases kind <;> rfl
  | cons c rest =>
      cases hd
      exact fun kind => hw ▸ rfl

/-! ## Single elements -/

/-- A new node has the given attributes over the defaults. -/
theorem yields_newNode (active : Stack) (name attrs : Value) :
    Yields cs (fun n => ∃ own label i, cs.Explicit attrs own ∧
        n = ((Node.make label ((cs.effective active .node).overlay own)).run i).1)
      (newNode active name attrs) := by
  refine .after name.quiet_toLabel fun label => ?_
  refine .bind (AttrTable.quiet_ofGiven attrs []) (yields_ofGiven attrs) fun own hown => ?_
  refine .bind (quiet_defaults active) (yields_defaults active) fun d hd => ?_
  have hnodes : d.nodes = cs.effective active .node := hd .node
  rw [hnodes]
  exact .make fun i => ⟨own, label, i, hown, rfl⟩

/-- A new graph has the given attributes over the defaults. -/
theorem yields_newGraph (active : Stack) (name : Value) (directed strict : Bool) (attrs : Value) :
    Yields cs (fun g => ∃ own label i, cs.Explicit attrs own ∧
        g = ((Graph.make label directed strict
          ((cs.effective active .graph).overlay own)).run i).1)
      (newGraph active name directed strict attrs) := by
  refine .after name.quiet_toLabel fun label => ?_
  refine .bind (AttrTable.quiet_ofGiven attrs []) (yields_ofGiven attrs) fun own hown => ?_
  refine .bind (quiet_defaults active) (yields_defaults active) fun d hd => ?_
  have hgraphs : d.graphs = cs.effective active .graph := hd .graph
  rw [hgraphs]
  exact .make fun i => ⟨own, label, i, hown, rfl⟩

/-- Without attributes of their own, a new node and a new graph have the bare defaults. -/
theorem yields_newNode_none (active : Stack) (name : Value) :
    Yields cs (fun n => ∃ label i, n = ((Node.make label (cs.effective active .node)).run i).1)
      (newNode active name .none) := by
  refine (yields_newNode active name .none).mono ?_
  rintro n ⟨own, label, i, hown, rfl⟩
  rw [hown.eq_empty]
  exact ⟨label, i, rfl⟩

theorem yields_newGraph_none (active : Stack) (name : Value) (directed strict : Bool) :
    Yields cs (fun g => ∃ label i,
        g = ((Graph.make label directed strict (cs.effective active .graph)).run i).1)
      (newGraph active name directed strict .none) := by
  refine (yields_newGraph active name directed strict .none).mono ?_
  rintro g ⟨own, label, i, hown, rfl⟩
  rw [hown.eq_empty]
  exact ⟨label, i, rfl⟩

/-- What a link ends at holds nothing new but endpoints. -/
theorem yields_endpoint? (v : Value) :
    Yields cs (fun end? => ∀ t, end? = some t → ∀ σ : Registry, σ.HasPoints → σ.Knows v →
      σ.Knows (.ofTarget t)) (endpoint? v) := by
  cases v with
  | node n =>
      -- the end is a new point at the node, at no port
      refine .bind (P := fun p => p.anchor = .source (.node n) ∧ p.place = .port .nowhere)
        (.make _) (.make fun i => ⟨rfl, rfl⟩) fun p hp => .pure fun t ht σ hσ h => ?_
      cases ht
      refine hσ.knows ?_ ?_
      · rw [hp.1]
        exact h
      · rw [hp.2]
        exact .nowhere
  | point p => exact .pure fun t ht σ _ h => by cases ht; exact h
  | graph g => exact .pure fun t ht σ _ h => by cases ht; exact h
  | foreign f => exact .pure fun t ht σ _ h => by cases ht; exact h
  | _ => exact .pure fun t ht => by cases ht

theorem yields_givenPort (v : Value) :
    Yields cs (fun p => ∀ σ : Registry, σ.Knows v → σ.Knows (.port p)) (givenPort v) := by
  unfold givenPort
  split
  · exact .pure fun σ _ => .nowhere
  · exact .pure fun σ h => h
  · exact yields_refuse _ _ _

/-- A new link has the given attributes over the defaults, and its ends hold nothing new but
endpoints. -/
theorem yields_newLink (active : Stack) (target port attrs : Value) :
    Yields cs (fun l => ∃ own t p i, cs.Explicit attrs own ∧
        l = ((Link.make t p ((cs.effective active .link).overlay own)).run i).1 ∧
        ∀ σ : Registry, σ.HasPoints → σ.Knows target → σ.Knows port →
          σ.Knows (.ofTarget t) ∧ σ.Knows (.port p))
      (newLink active target port attrs) := by
  unfold newLink
  refine .guarded (quiet_refuse _ _) (yields_refuse _ _ _) fun _ => ?_
  refine .bind (quiet_givenPort port) (yields_givenPort port) fun p hp => ?_
  refine .bind (quiet_endpoint? target) (yields_endpoint? target) fun end? hend => ?_
  cases end? with
  | none => exact yields_refuse _ _ _
  | some t =>
      refine .bind (AttrTable.quiet_ofGiven attrs []) (yields_ofGiven attrs) fun own hown => ?_
      refine .bind (quiet_defaults active) (yields_defaults active) fun d hd => ?_
      have hlinks : d.links = cs.effective active .link := hd .link
      rw [hlinks]
      exact .make fun i => ⟨own, t, p, i, hown, rfl, fun σ hσ ht hport =>
        ⟨hend t rfl σ hσ ht, hp σ hport⟩⟩

/-- A value that is no link yet becomes a link with the bare defaults. -/
theorem yields_toLink (active : Stack) (v : Value) :
    Yields cs (fun l => v = .link l ∨ l.attrs = cs.effective active .link ∧
        ∀ σ : Registry, σ.HasPoints → σ.Knows v → ∀ w, Value.Part (.link l) w → σ.Knows w)
      (toLink active v) := by
  unfold toLink
  split
  · exact .pure (.inl rfl)
  · refine (yields_newLink active _ .none .none).mono fun l hl => .inr ?_
    obtain ⟨own, t, p, i, hown, rfl, hends⟩ := hl
    refine ⟨?_, fun σ hσ hv w hw => ?_⟩
    · rw [hown.eq_empty]
      rfl
    · have hknows := hends σ hσ hv (.plain rfl fun _ hpart => by cases hpart)
      cases hw with
      | target => exact hknows.1
      | sourcePort => exact hknows.2

end Act

/-! ## Constructions -/

/-- The construction of an element, with its arguments. -/
inductive Construction where
  | node (name attrs : Value)
  | graph (name : Value) (directed strict : Bool) (attrs : Value)
  | link (target sourcePort attrs : Value)

namespace Construction

/-- What is constructed. -/
def kind : Construction → ElementKind
  | node _ _ => .node
  | graph _ _ _ _ => .graph
  | link _ _ _ => .link

/-- The attributes that are given. -/
def attrs : Construction → Value
  | node _ attrs => attrs
  | graph _ _ _ attrs => attrs
  | link _ _ attrs => attrs

/-- Construct the element where the contexts are active. -/
def carryOut (active : Stack) : Construction → Act Value
  | node name attrs => do return .node (← Act.newNode active name attrs)
  | graph name directed strict attrs => do
    return .graph (← Act.newGraph active name directed strict attrs)
  | link target sourcePort attrs => do
    return .link (← Act.newLink active target sourcePort attrs)

/-- **An element starts out with its explicit attributes over the defaults in effect.** -/
theorem yields_carryOut (k : Construction) (active : Stack) :
    Yields cs (fun e => ∃ own, cs.Explicit k.attrs own ∧
        e.StartsOut k.kind (cs.effective active k.kind) own) (k.carryOut active) := by
  have hlaid : ∀ own, Table.LaidOver (cs.effective active k.kind) own
      ((cs.effective active k.kind).overlay own) := Table.laidOver_overlay _
  cases k with
  | node name attrs =>
      refine .bind (Act.quiet_newNode active name attrs) (Act.yields_newNode active name attrs) ?_
      rintro n ⟨own, label, i, hown, rfl⟩
      exact .pure ⟨own, hown, _, rfl, hlaid own⟩
  | graph name directed strict attrs =>
      refine .bind (Act.quiet_newGraph active name directed strict attrs)
        (Act.yields_newGraph active name directed strict attrs) ?_
      rintro g ⟨own, label, i, hown, rfl⟩
      exact .pure ⟨own, hown, _, rfl, hlaid own⟩
  | link target port attrs =>
      refine .bind (Act.quiet_newLink active target port attrs)
        (Act.yields_newLink active target port attrs) ?_
      rintro l ⟨own, t, p, i, hown, rfl, -⟩
      exact .pure ⟨own, hown, _, rfl, hlaid own⟩

end Construction

/-- The construction that a call is for, if it takes attributes for an element: its arguments are
told first. -/
def Names.construction? (names : Names) : Call → Option (Act Construction)
  | .node name more => some do
    let name ← name.mapM (Expr.eval names)
    let (name, more) ← splitArgument "name" name (← evalNamed names more)
    return .node (name.getD (.text "")) (← mapOfNamed more)
  | .graph name more => some do
    let name ← name.mapM (Expr.eval names)
    let (name, more) ← splitArgument "name" name (← evalNamed names more)
    return .graph (name.getD (.text "")) false false (← mapOfNamed more)
  | .newNode name attrs => some do
    let name ← evalOr names name (.text "")
    return .node name (← evalOr names attrs .none)
  | .newGraph name directed strict attrs => some do
    let name ← evalOr names name (.text "")
    return .graph name directed strict (← evalOr names attrs .none)
  | .linkTo target attrs => some do
    let target ← target.eval names
    return .link target .none (← evalOr names attrs .none)
  | .between source target attrs => some do
    let source ← source.eval names
    let target ← target.eval names
    return .link target source (← evalOr names attrs .none)
  | .newLink target sourcePort attrs => some do
    let target ← target.eval names
    let sourcePort ← evalOr names sourcePort .none
    return .link target sourcePort (← evalOr names attrs .none)
  | _ => none

/-- **A call for an element carries out one construction.** -/
theorem Act.perform_construction {names : Names} {c : Call} {a : Act Construction}
    (hc : names.construction? c = some a) (active : Stack) :
    Act.perform active names c = (do return .value (← (← a).carryOut active)) := by
  cases c <;> cases hc <;> simp [Act.perform, Construction.carryOut]

theorem Names.quiet_construction {names : Names} {c : Call} {a : Act Construction}
    (hc : names.construction? c = some a) : Quiet a := by
  cases c <;> cases hc <;> grind

/-! ## Links, chains and nests -/

/-- In a new graph no subgraph is found. -/
theorem Graph.subgraphAt?_make (label name : Label) (directed strict : Bool) (attrs : AttrTable)
    (i : Nat) : (((Graph.make label directed strict attrs).run i).1 : Graph Value).subgraphAt? name =
      none := by
  unfold subgraphAt?
  split <;> rfl

/-- A subgraph that is not found among the others is appended. -/
theorem Graph.run_addSubgraphs_singleton {g s : Graph Value} (hs : g.subgraphAt? s.name = none)
    (i : Nat) : ((g.addSubgraphs [s]).run i).1 = { g.appendSubgraph s with ident := i } := by
  rw [addSubgraphs, placeSubgraphs, hs, placeSubgraphs]
  rfl

/-- All elements that are found in a value have the attributes of their kind. -/
def Registry.uniform (D : ElementKind → AttrTable) : Registry :=
  fun _ v => ∀ kind t, v.element? = some (kind, t) → t = D kind

namespace Registry

variable {D : ElementKind → AttrTable}

/-- Endpoints have no attributes that could differ. -/
theorem uniform_hasPoints : (uniform D).HasPoints := fun p kind t h => by cases h

theorem Knows.attrs_eq {v w : Value} (h : (uniform D).Knows v)
    (hw : Relation.ReflTransGen Value.Part v w) {kind : ElementKind} {t : AttrTable}
    (ht : w.element? = some (kind, t)) : t = D kind := by
  cases w <;> cases ht <;> exact h _ hw _ rfl _ _ rfl

theorem uniform_link {l : Link Value} (hattrs : l.attrs = D .link)
    (hparts : ∀ w, Value.Part (.link l) w → (uniform D).Knows w) : (uniform D).Knows (.link l) := by
  refine .intro (fun i _ kind t ht => ?_) hparts
  cases ht
  exact hattrs

theorem uniform_node {n : Node Value} (hattrs : n.attrs = D .node)
    (hlinks : ∀ l ∈ n.links, (uniform D).Knows (.link l)) : (uniform D).Knows (.node n) := by
  refine .intro (fun i _ kind t ht => ?_) fun w hw => ?_
  · cases ht
    exact hattrs
  · cases hw with
    | nodeLink h => exact hlinks _ h

/-- A new node has no links that could differ. -/
theorem uniform_nodeMake (label : Label) (i : Nat) :
    (uniform D).Knows (.node ((Node.make label (D .node)).run i).1) :=
  uniform_node rfl fun _ hl => absurd hl List.not_mem_nil

theorem uniform_graph {g : Graph Value} (hattrs : g.attrs = D .graph)
    (hparts : ∀ w, Value.Part (.graph g) w → (uniform D).Knows w) :
    (uniform D).Knows (.graph g) := by
  refine .intro (fun i _ kind t ht => ?_) hparts
  cases ht
  exact hattrs

end Registry

open Registry (uniform)

namespace Act

/-- A node or graph that is linked further keeps its attributes. Its links are those that it had,
those that were given, and new ones with the bare defaults. -/
theorem yields_addLinks (active : Stack) (v : Value) (targets : List Value) :
    Yields cs (fun u => u.element? = v.element? ∧
        ∀ l, Value.Part u (.link l) → Value.Part v (.link l) ∨ .link l ∈ targets ∨
          l.attrs = cs.effective active .link)
      (addLinks active v targets) := by
  have hlinks : Yields cs (fun ls => ∀ l ∈ ls, Value.link l ∈ targets ∨
      l.attrs = cs.effective active .link) (targets.mapM (toLink active)) :=
    .mapM (quiet_toLink active) fun t ht => (yields_toLink active t).mono fun l hl =>
      hl.imp (fun h : t = .link l => h ▸ ht) And.left
  have hquiet : Quiet (targets.mapM (toLink active)) := .mapM (quiet_toLink active) targets
  -- a node takes any links; a graph refuses those that leave it at a port
  unfold addLinks
  split
  · rename_i n
    refine .bind hquiet hlinks fun ls hls => .bind (.make _) (P := fun m =>
      m.attrs = n.attrs ∧ m.links = n.links ++ ls) (.make fun i => ⟨rfl, rfl⟩) fun m hm => .pure ?_
    refine ⟨congrArg (fun t => some (ElementKind.node, t)) hm.1, fun l hl => ?_⟩
    cases hl with
    | nodeLink h =>
        rw [hm.2] at h
        exact (List.mem_append.1 h).imp .nodeLink (hls l)
  · rename_i g
    refine .bind hquiet hlinks fun ls hls => ?_
    split
    · exact .after (quiet_debug _) fun _ => .throw _ _
    · refine .bind (.make _) (P := fun k => k.attrs = g.attrs ∧ k.links = g.links ++ ls)
        (.make fun i => ⟨rfl, rfl⟩) fun k hk => .pure ?_
      refine ⟨congrArg (fun t => some (ElementKind.graph, t)) hk.1, fun l hl => ?_⟩
      cases hl with
      | graphLink h =>
          rw [hk.2] at h
          exact (List.mem_append.1 h).imp .graphLink (hls l)
  · exact .throw _ _

theorem yields_chainFrom (active : Stack) (stem : String) (k : Nat) {last : Node Value}
    (hlast : (uniform (cs.effective active)).Knows (.node last)) :
    Yields cs (fun n => (uniform (cs.effective active)).Knows (.node n))
      (chainFrom active stem k last) := by
  induction k generalizing last with
  | zero => exact .pure hlast
  | succ k ih =>
      unfold chainFrom
      refine .bind (quiet_newNode _ _ _) (yields_newNode_none active _) ?_
      rintro n ⟨label, i, rfl⟩
      refine .bind (quiet_toLink _ _) (yields_toLink active _) fun l hl => ?_
      obtain ⟨hattrs, hends⟩ := hl.resolve_left fun h => by cases h
      have hl : (uniform (cs.effective active)).Knows (.link l) :=
        Registry.uniform_link hattrs (hends _ Registry.uniform_hasPoints hlast)
      refine .bind (.make _) (P := fun m => (uniform (cs.effective active)).Knows (.node m))
        (.make fun j => Registry.uniform_node rfl fun m hm => ?_) fun m hm => ih hm
      exact List.mem_singleton.1 hm ▸ hl

/-- **All elements of a new chain have the bare defaults.** -/
theorem yields_chain (active : Stack) (stem : String) (count : Int) :
    Yields cs (fun n => (uniform (cs.effective active)).Knows (.node n))
      (chain active stem count) := by
  refine .bind (quiet_newNode _ _ _) (yields_newNode_none active _) ?_
  rintro n ⟨label, i, rfl⟩
  exact yields_chainFrom active stem _ (Registry.uniform_nodeMake label i)

theorem yields_nestFrom (active : Stack) (stem : String) (k : Nat) {inner : Graph Value}
    (hinner : (uniform (cs.effective active)).Knows (.graph inner)) :
    Yields cs (fun g => (uniform (cs.effective active)).Knows (.graph g))
      (nestFrom active stem k inner) := by
  induction k generalizing inner with
  | zero => exact .pure hinner
  | succ k ih =>
      unfold nestFrom
      refine .bind (quiet_newGraph _ _ _ _ _) (yields_newGraph_none active _ _ _) ?_
      rintro g ⟨label, i, rfl⟩
      refine .bind (.make _) (P := fun g => (uniform (cs.effective active)).Knows (.graph g))
        (.make fun j => ?_) fun m hm => ih hm
      -- nothing is merged on the way, so the attributes stay those of the two graphs
      rw [Graph.run_addSubgraphs_singleton (Graph.subgraphAt?_make _ _ _ _ _ _)]
      refine Registry.uniform_graph rfl fun w hw => ?_
      cases hw with
      | graphNode h => exact absurd h List.not_mem_nil
      | subgraph h => exact List.mem_singleton.1 h ▸ hinner
      | graphLink h => exact absurd h List.not_mem_nil

/-- **All elements of a new nest have the bare defaults.** -/
theorem yields_nest (active : Stack) (stem : String) (count : Int) :
    Yields cs (fun g => (uniform (cs.effective active)).Knows (.graph g))
      (nest active stem count) := by
  refine .bind (quiet_newGraph _ _ _ _ _) (yields_newGraph_none active _ _ _) ?_
  rintro g ⟨label, i, rfl⟩
  refine .bind (quiet_newNode _ _ _) (yields_newNode_none active _) ?_
  rintro n ⟨label', i', rfl⟩
  refine .bind (.make _) (P := fun g => (uniform (cs.effective active)).Knows (.graph g))
    (.make fun j => ?_) fun m hm => yields_nestFrom active stem _ hm
  refine Registry.uniform_graph rfl fun w hw => ?_
  cases hw with
  | graphNode h => exact List.mem_singleton.1 h ▸ Registry.uniform_nodeMake label' i'
  | subgraph h => exact absurd h List.not_mem_nil
  | graphLink h => exact absurd h List.not_mem_nil

end Act

/-! ## What calls construct -/

namespace Act

variable {names : Names} {active : Stack} {w : World} {answer : Answer}

/-- **A call for an element with attributes gives one that starts out with them.** -/
theorem startsOut_of_perform {c : Call} {a : Act Construction}
    (hc : names.construction? c = some a)
    (h : ((perform active names c).run w).1 = .ok answer) :
    ∃ k e own, (a.run w).1 = .ok k ∧ answer = .value e ∧
      ((AttrTable.ofGiven k.attrs []).run w).1 = .ok own ∧
      e.StartsOut k.kind (w.contexts.effective active k.kind) own := by
  rw [perform_construction hc] at h
  obtain ⟨k, hk, h⟩ := run_bind_eq_ok h
  obtain ⟨e, he, h⟩ := run_bind_eq_ok h
  -- telling the arguments has left the contexts as they were
  have hw := Names.quiet_construction hc w
  obtain ⟨own, hown, hstarts⟩ := k.yields_carryOut active _ hw e he
  cases h
  exact ⟨k, e, own, hk, rfl, hown w rfl, hstarts⟩

theorem link_of_perform {target : Expr}
    (h : ((perform active names (.linkOf target)).run w).1 = .ok answer) :
    ∃ v l, ((target.eval names).run w).1 = .ok v ∧ answer = .value (.link l) ∧
      (v = .link l ∨ l.attrs = w.contexts.effective active .link) := by
  obtain ⟨v, hv, h⟩ := run_bind_eq_ok h
  obtain ⟨l, hl, h⟩ := run_bind_eq_ok h
  have hw := target.quiet_eval names w
  have hlink := yields_toLink active v _ hw l hl
  cases h
  exact ⟨v, l, hv, rfl, hlink.imp_right And.left⟩

theorem linked_of_perform {on : String} {targets : List Expr}
    (h : ((perform active names (.link on targets)).run w).1 = .ok answer) :
    ∃ v vs u, names.get? on = some v ∧ ((evalItems names targets).run w).1 = .ok vs ∧
      answer = .value u ∧ u.element? = v.element? ∧
      ∀ l, Value.Part u (.link l) → Value.Part v (.link l) ∨ .link l ∈ vs ∨
        l.attrs = w.contexts.effective active .link := by
  obtain ⟨v, hv, h⟩ := run_bind_eq_ok h
  obtain ⟨vs, hvs, h⟩ := run_bind_eq_ok h
  obtain ⟨u, hu, h⟩ := run_bind_eq_ok h
  -- the targets are told in the world of the call, for reading a name changes nothing
  obtain ⟨hname, hsame⟩ := Names.run_readFor hv
  rw [hsame] at hvs hu
  have hw := quiet_evalItems names targets w
  obtain ⟨hkeeps, hlinks⟩ := yields_addLinks active v vs _ hw u hu
  cases h
  exact ⟨v, vs, u, hname, hvs, rfl, hkeeps, hlinks⟩

/-- All elements of a new chain or nest have the bare defaults. -/
theorem uniform_of_perform {c : Call} {stem : String} {count : Int}
    (hc : c = .chain stem count ∨ c = .nest stem count)
    (h : ((perform active names c).run w).1 = .ok answer) :
    ∃ v, answer = .value v ∧ ∀ e, Relation.ReflTransGen Value.Part v e →
      ∀ kind t, e.element? = some (kind, t) → t = w.contexts.effective active kind := by
  rcases hc with rfl | rfl
  · obtain ⟨n, hn, h⟩ := run_bind_eq_ok h
    have hknows := yields_chain active stem count w rfl n hn
    cases h
    exact ⟨.node n, rfl, fun e he kind t ht => hknows.attrs_eq he ht⟩
  · obtain ⟨k, hk, h⟩ := run_bind_eq_ok h
    have hknows := yields_nest active stem count w rfl k hk
    cases h
    exact ⟨.graph k, rfl, fun e he kind t ht => hknows.attrs_eq he ht⟩

theorem run_perform_defaults (active : Stack) (names : Names) (w : World) :
    ∃ d, ((perform active names .defaults).run w).1 = .ok (.defaults d active.depth) ∧
      ∀ kind, d.get kind = w.contexts.effective active kind := by
  have hd : ∃ d, ((defaults active).run w) = (.ok d, w) := by
    cases active with
    | nil => exact ⟨.none, rfl⟩
    | cons c rest => exact ⟨w.contexts.defaults c, rfl⟩
  obtain ⟨d, hd⟩ := hd
  refine ⟨d, ?_, yields_defaults active w rfl d (by rw [hd])⟩
  show ((defaults active >>= fun d => Pure.pure (Answer.defaults d active.depth)).run w).1 = _
  rw [run_bind, hd]
  rfl

end Act

/-! ## Calls that do not look at the active contexts -/

/-- The call constructs elements. -/
def Call.constructs : Call → Bool
  | .node .. => true
  | .graph .. => true
  | .newNode .. => true
  | .newGraph .. => true
  | .linkTo .. => true
  | .between .. => true
  | .newLink .. => true
  | .linkOf _ => true
  | .link .. => true
  | .chain .. => true
  | .nest .. => true
  | _ => false

/-- The call asks about the active contexts: which one is innermost, or what its defaults are. -/
def Call.asksContexts : Call → Bool
  | .current => true
  | .defaults => true
  | .field _ .current _ => true
  | _ => false

theorem Value.field_unread (v : Value) {f : Field} (hf : f ≠ .current) (active active' : Stack) :
    v.field active f = v.field active' f := by
  cases f <;> cases v <;> first | rfl | exact absurd rfl hf

/-- **A call that does not construct anything and does not ask about the active contexts is the same
wherever it is carried out.** -/
theorem Act.perform_unread (names : Names) {c : Call} (hc : c.constructs = false)
    (hasks : c.asksContexts = false) (active active' : Stack) :
    Act.perform active names c = Act.perform active' names c := by
  cases c with
  | field on field index =>
      have hfield : field ≠ .current := by
        rintro rfl
        cases hasks
      unfold Act.perform
      simp only [Value.field_unread _ hfield active active']
  | _ => first | exact Bool.noConfusion hc | exact Bool.noConfusion hasks | rfl

/-- Links that are given as such are not constructed. -/
theorem Act.addLinks_unread (v : Value) (ls : List (Link Value)) (active active' : Stack) :
    Act.addLinks active v (ls.map .link) = Act.addLinks active' v (ls.map .link) := by
  have hlinks : (ls.map Value.link).mapM (Act.toLink active) =
      (ls.map Value.link).mapM (Act.toLink active') := by
    induction ls with
    | nil => rfl
    | cons l rest ih =>
        rw [List.map_cons, List.mapM_cons, List.mapM_cons, ih]
        rfl
  unfold Act.addLinks
  rw [hlinks]

end DotDoc
