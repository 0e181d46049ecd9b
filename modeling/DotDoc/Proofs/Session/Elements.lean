import DotDoc.Proofs.Session.Acts

set_option autoImplicit false

/-!
# Building graphs from known values

The operations that make and update elements give known values if they are given known ones. A port,
a target and an anchor are what they were given as, so they are known with it.
-/

namespace DotDoc

variable {I : Registry → Nat → Prop} {σ τ : Registry}

/-! ## Values as targets, ports and anchors -/

namespace Registry.Knows

variable {v : Value}

theorem toRecord (h : σ.Knows v) : σ.Knows (.ofRecord v.toRecord) := by
  rw [Value.ofRecord_toRecord]
  exact h

theorem toPlace (h : σ.Knows v) : σ.Knows (.ofPlace v.toPlace) := by
  rw [Value.ofPlace_toPlace]
  exact h

theorem toAnchor (h : σ.Knows v) : σ.Knows (.ofAnchor v.toAnchor) := by
  rw [Value.ofAnchor_toAnchor]
  exact h

end Registry.Knows

namespace Act

/-! ## New elements -/

theorem endpoint?_gives (hK : Registry.Keeps I) {v : Value} (hv : σ.Knows v) :
    Gives I σ (fun τ t => ∀ t', t = some t' → τ.Knows (.ofTarget t')) (endpoint? v) := by
  have hfound : ∀ {τ : Registry} {t : Target Value}, τ.Knows (.ofTarget t) →
      Gives I τ (fun τ o => ∀ t', o = some t' → τ.Knows (.ofTarget t')) (Pure.pure (some t)) := by
    intro τ t ht
    refine .pure fun υ hυ t' heq => ?_
    cases heq
    exact ht.mono hυ
  unfold endpoint?
  split
  -- a node leads to a new endpoint; endpoints, graphs and other targets are what they are
  · exact (Gives.make (Node.pointAt_gives hK hv .nowhere)).bind fun τ p _ hp => hfound hp
  · exact hfound hv
  · exact hfound hv
  · exact hfound hv
  · refine .pure fun τ hτ t ht => ?_
    cases ht

theorem endpoint_gives (hK : Registry.Keeps I) {v : Value} (hv : σ.Knows v) :
    Gives I σ Registry.Knows (endpoint v) := by
  refine (endpoint?_gives hK hv).bind fun τ t _ ht => ?_
  cases t with
  | none => exact .throw _
  | some t => exact .pure fun υ hυ => (ht t rfl).mono hυ

theorem givenPort_gives {v : Value} (hv : σ.Knows v) :
    Gives I σ (fun τ p => τ.Knows (.port p)) (givenPort v) := by
  unfold givenPort
  split
  · exact .pure fun _ _ => .nowhere
  · exact .pure fun _ hτ => hv.mono hτ
  · exact gives_refuse _ _

/-- A link to a known value is known. -/
theorem newLink_gives (hK : Registry.Keeps I) (active : Stack) {target port : Value}
    (attrs : Value) (ht : σ.Knows target) (hp : σ.Knows port) :
    Gives I σ (fun τ l => τ.Knows (.link l)) (newLink active target port attrs) := by
  unfold newLink
  refine .guarded (gives_refuse _ _) fun τ hτ => ?_
  refine (givenPort_gives (hp.mono hτ)).bind fun υ p hυ hp => ?_
  refine (endpoint?_gives hK (ht.mono (le_trans hτ hυ))).bind fun φ t hφ ht => ?_
  cases t with
  | none => exact gives_refuse _ _
  | some t =>
      refine (AttrTable.goes_ofGiven attrs []).after fun χ own hχ => ?_
      refine (goes_defaults active).after fun ψ d hψ => ?_
      exact .make (Link.make_gives hK _ ((ht t rfl).mono (le_trans hχ hψ))
        (hp.mono (le_trans hφ (le_trans hχ hψ))))

theorem toLink_gives (hK : Registry.Keeps I) (active : Stack) {v : Value} (hv : σ.Knows v) :
    Gives I σ (fun τ l => τ.Knows (.link l)) (toLink active v) := by
  unfold toLink
  split
  · exact .pure fun _ hτ => hv.mono hτ
  · exact newLink_gives hK active .none hv (.plain rfl nofun)

theorem newNode_gives (hK : Registry.Keeps I) (active : Stack) (name attrs : Value) :
    Gives I σ (fun τ n => τ.Knows (.node n)) (newNode active name attrs) :=
  name.goes_toLabel.after fun _ _ _ => (AttrTable.goes_ofGiven attrs []).after fun _ _ _ =>
    (goes_defaults active).after fun _ _ _ => .make (Node.make_gives hK _ _)

theorem newGraph_gives (hK : Registry.Keeps I) (active : Stack) (name : Value)
    (directed strict : Bool) (attrs : Value) :
    Gives I σ (fun τ g => τ.Knows (.graph g)) (newGraph active name directed strict attrs) :=
  name.goes_toLabel.after fun _ _ _ => (AttrTable.goes_ofGiven attrs []).after fun _ _ _ =>
    (goes_defaults active).after fun _ _ _ => .make (Graph.make_gives hK _ _ _ _)

/-! ## Ports -/

theorem goes_givenSide (v : Value) : Goes I σ (givenSide v) := by
  unfold givenSide
  split
  · exact goes_pure _
  · exact (Value.goes_toCompass _).after fun _ _ _ => goes_pure _

theorem newPort_gives (hK : Registry.Keeps I) {record : Value} (compass : Value)
    (hr : σ.Knows record) :
    Gives I σ (fun τ p => τ.Knows (.port p)) (newPort record compass) :=
  (goes_givenSide compass).after fun _ side hτ =>
    .make (Port.make_gives hK side (hr.mono hτ).toRecord)

/-- A known value at another port is known. -/
theorem changePort_gives (hK : Registry.Keeps I) {f : Port Value → Act (Port Value)}
    (v : Value) {σ : Registry} (hv : σ.Knows v)
    (hf : ∀ τ p, σ ≤ τ → τ.Knows (.port p) → Gives I τ (fun τ q => τ.Knows (.port q)) (f p)) :
    Gives I σ Registry.Knows (changePort f v) := by
  unfold changePort
  split
  · refine (hf σ _ (le_refl σ) hv).bind fun τ q _ hq => ?_
    exact .pure fun _ hυ => hq.mono hυ
  · refine (hf σ _ (le_refl σ) .nowhere).bind fun τ q hτ hq => ?_
    exact .made (Node.pointAt_gives hK (hv.mono hτ) hq) fun _ _ hp => hp
  · rename_i i anchor p
    refine (hf σ p (le_refl σ) (hv.part (.place _))).bind fun τ q hτ hq => ?_
    have hanchor := (hv.part (.anchor _)).mono hτ
    exact .made (NodePoint.make_gives hK (p := .port q) hanchor hq) fun _ _ hp => hp
  · rename_i i anchor u
    -- what stands for the port is changed first, as a value of its own
    refine (changePort_gives hK u (hv.part (.place _)) hf).bind fun τ place hτ hplace => ?_
    have hanchor := (hv.part (.anchor _)).mono hτ
    exact .made (NodePoint.make_gives hK hanchor hplace.toPlace) fun _ _ hp => hp
  · exact .throw _

theorem atRecord_gives (hK : Registry.Keeps I) {v name : Value} (hv : σ.Knows v)
    (hn : σ.Knows name) : Gives I σ Registry.Knows (atRecord v name) :=
  changePort_gives hK v hv fun _ _ hτ _ => .make (Port.make_gives hK _ (hn.mono hτ).toRecord)

theorem atSide_gives (hK : Registry.Keeps I) {v : Value} (direction : Value) (hv : σ.Knows v) :
    Gives I σ Registry.Knows (atSide v direction) :=
  changePort_gives hK v hv fun _ _ _ hp => (goes_givenSide direction).after fun _ side hυ =>
    .make (Port.make_gives hK side ((hp.part (.record _)).mono hυ))

/-! ## Attributes -/

/-- A known graph with other tables is a draft. -/
theorem withTable_draft {g : Graph Value} (hg : σ.Knows (.graph g)) (t : AttrTable)
    (slot : GraphTable) : σ.Draft (g.withTable t slot) := by
  cases slot <;> exact ⟨fun w hw => hg.draft.parts w (by cases hw <;> constructor <;> assumption),
    fun hσ => ⟨(hg.indexed hσ).nodes, (hg.indexed hσ).subgraphs, (hg.indexed hσ).links⟩⟩

theorem changeAttributes_gives (hK : Registry.Keeps I) {v : Value}
    {f : AttrTable → Act AttrTable} (hv : σ.Knows v) (hf : ∀ τ t, σ ≤ τ → Goes I τ (f t)) :
    Gives I σ Registry.Knows (changeAttributes v f) := by
  unfold changeAttributes
  split
  · rename_i n
    refine (hf σ _ (le_refl σ)).after fun τ attrs hτ => ?_
    have hlinks : ∀ l ∈ n.links, τ.Knows (.link l) := fun l hl =>
      (hv.mono hτ).part (.nodeLink hl)
    exact .made (Node.renew_gives hK (n := { n with attrs }) hlinks) fun _ _ hm => hm.1
  · refine (hf σ _ (le_refl σ)).after fun τ attrs hτ => ?_
    exact .made (Link.renew_gives hK (hv.mono hτ) attrs) fun _ _ hm => hm
  · rename_i g
    refine (hf σ _ (le_refl σ)).after fun τ attrs hτ => ?_
    have hdraft := withTable_draft (hv.mono hτ) attrs .general
    exact .made (Graph.renew_gives hK hdraft) fun _ _ hh => hh.1
  · rename_i i owner slot
    refine (hf σ _ (le_refl σ)).after fun τ attrs hτ => ?_
    have hdraft := withTable_draft ((hv.part (.viewed i owner slot)).mono hτ) attrs slot
    exact .made (Graph.renew_gives hK hdraft) fun _ _ hh => hh.1
  · refine goes_get.after fun τ w hτ => (hf τ _ hτ).after fun υ attrs _ => ?_
    refine (goes_setDefaults _ _ _).after fun φ _ _ => ?_
    exact .pure fun _ _ => .plain rfl nofun
  · exact .throw _

theorem setAttr_gives (hK : Registry.Keeps I) {v : Value} (key value : Value) (hv : σ.Knows v) :
    Gives I σ Registry.Knows (setAttr v key value) :=
  changeAttributes_gives hK hv fun _ t _ => t.goes_withAttr key value

theorem setAttrs_gives (hK : Registry.Keeps I) {v : Value} (items : Value)
    (named : List (String × Value)) (hv : σ.Knows v) :
    Gives I σ Registry.Knows (setAttrs v items named) :=
  changeAttributes_gives hK hv fun _ _ _ =>
    (AttrTable.goes_ofGiven items named).after fun _ _ _ => goes_pure _

/-! ## Graphs -/

theorem changeGraph_gives (hK : Registry.Keeps I) {g : Graph Value} {f : Graph Value → Graph Value}
    (hf : σ.Draft (f g)) : Gives I σ Registry.Knows (changeGraph g f) :=
  .made (Graph.renew_gives hK hf) fun _ _ hh => hh.1

theorem addLinks_gives (hK : Registry.Keeps I) (active : Stack) {v : Value} {targets : List Value}
    (hv : σ.Knows v) (ht : ∀ t ∈ targets, σ.Knows t) :
    Gives I σ Registry.Knows (addLinks active v targets) := by
  have hlinks : Gives I σ (fun τ ls => ∀ l ∈ ls, τ.Knows (.link l))
      (targets.mapM (toLink active)) :=
    .mapM (fun hτ hl => hl.mono hτ) fun t h τ hτ => toLink_gives hK active ((ht t h).mono hτ)
  unfold addLinks
  split
  · refine hlinks.bind fun τ ls hτ hls => ?_
    exact .made (Node.addLinks_gives hK (hv.mono hτ) hls) fun _ _ hn => hn
  · refine hlinks.bind fun τ ls hτ hls => ?_
    cases hf : ls.find? fun l => !l.sourcePort.isEmpty with
    | some l => exact (goes_debug _).after fun _ _ _ => .throw _
    | none =>
        -- no link was refused, so none leaves the graph at a port
        have hports : ∀ l ∈ ls, l.sourcePort.isEmpty = true := by
          intro l hl
          simpa using List.find?_eq_none.1 hf l hl
        exact .made (Graph.addLinks_gives hK (hv.mono hτ) hls hports) fun _ _ hg => hg
  · exact .throw _

theorem addNodes_gives (hK : Registry.Keeps I) {g : Graph Value} {nodes : List Value}
    (hg : σ.Knows (.graph g)) (hns : ∀ v ∈ nodes, σ.Knows v) :
    Gives I σ Registry.Knows (addNodes g nodes) := by
  refine (Gives.mapM (P := fun τ n => τ.Knows (.node n)) (fun hτ hn => hn.mono hτ)
    fun v hv τ hτ => ?_).bind fun τ ns hτ hns => ?_
  · have hvk := (hns v hv).mono hτ
    cases v with
    | node n => exact .pure fun _ hυ => hvk.mono hυ
    | _ => exact gives_refuse _ _
  · exact .made (Graph.addNodes_gives hK (hg.mono hτ) hns) fun _ _ hh => hh

theorem addSubgraphs_gives (hK : Registry.Keeps I) {g : Graph Value} {graphs : List Value}
    (hg : σ.Knows (.graph g)) (hgs : ∀ v ∈ graphs, σ.Knows v) :
    Gives I σ Registry.Knows (addSubgraphs g graphs) := by
  refine (Gives.mapM (P := fun τ s => τ.Knows (.graph s)) (fun hτ hs => hs.mono hτ)
    fun v hv τ hτ => ?_).bind fun τ ss hτ hss => ?_
  · have hvk := (hgs v hv).mono hτ
    cases v with
    | graph s => exact .pure fun _ hυ => hvk.mono hυ
    | _ => exact gives_refuse _ _
  · exact .made (Graph.addSubgraphs_gives hK (hg.mono hτ) hss) fun _ _ hh => hh

theorem merge_gives (hK : Registry.Keeps I) {v other : Value} (hv : σ.Knows v)
    (ho : σ.Knows other) : Gives I σ Registry.Knows (merge v other) := by
  unfold merge
  split
  · exact (AttrTable.goes_mergeGiven _ _).after fun _ _ _ => .pure fun _ _ => .plain rfl nofun
  · exact .made (Node.merge_gives hK hv ho) fun _ _ hm => hm.1
  · exact .made (Graph.merge_gives hK _ _ hv ho) fun _ _ hm => hm.1
  · exact .throw _

/-! ## Chains and nests -/

theorem chainFrom_gives (hK : Registry.Keeps I) (active : Stack) (stem : String) (k : Nat)
    {σ : Registry} {last : Node Value} (h : σ.Knows (.node last)) :
    Gives I σ (fun τ n => τ.Knows (.node n)) (chainFrom active stem k last) := by
  induction k generalizing σ last with
  | zero => exact .pure fun _ hτ => h.mono hτ
  | succ k ih =>
      unfold chainFrom
      refine (newNode_gives hK active _ _).bind fun τ n hτ hn => ?_
      refine (toLink_gives hK active (h.mono hτ)).bind fun υ l hυ hl => ?_
      have hls : ∀ m ∈ [l], υ.Knows (.link m) := by
        intro m hm
        rw [List.mem_singleton.1 hm]
        exact hl
      exact (Gives.make (Node.addLinks_gives hK (hn.mono hυ) hls)).bind fun _ _ _ hm => ih hm

theorem chain_gives (hK : Registry.Keeps I) (active : Stack) (stem : String) (count : Int) :
    Gives I σ (fun τ n => τ.Knows (.node n)) (chain active stem count) :=
  (newNode_gives hK active _ _).bind fun _ _ _ hn => chainFrom_gives hK active stem _ hn

theorem nestFrom_gives (hK : Registry.Keeps I) (active : Stack) (stem : String) (k : Nat)
    {σ : Registry} {inner : Graph Value} (h : σ.Knows (.graph inner)) :
    Gives I σ (fun τ g => τ.Knows (.graph g)) (nestFrom active stem k inner) := by
  induction k generalizing σ inner with
  | zero => exact .pure fun _ hτ => h.mono hτ
  | succ k ih =>
      unfold nestFrom
      refine (newGraph_gives hK active _ _ _ _).bind fun τ outer hτ ho => ?_
      have hss : ∀ s ∈ [inner], τ.Knows (.graph s) := by
        intro s hs
        rw [List.mem_singleton.1 hs]
        exact h.mono hτ
      exact (Gives.make (Graph.addSubgraphs_gives hK ho hss)).bind fun _ _ _ hg => ih hg

theorem nest_gives (hK : Registry.Keeps I) (active : Stack) (stem : String) (count : Int) :
    Gives I σ (fun τ g => τ.Knows (.graph g)) (nest active stem count) := by
  refine (newGraph_gives hK active _ _ _ _).bind fun τ g _ hg => ?_
  refine (newNode_gives hK active _ _).bind fun υ leaf hυ hl => ?_
  have hns : ∀ n ∈ [leaf], υ.Knows (.node n) := by
    intro n hn
    rw [List.mem_singleton.1 hn]
    exact hl
  exact (Gives.make (Graph.addNodes_gives hK (hg.mono hυ) hns)).bind
    fun _ _ _ hh => nestFrom_gives hK active stem _ hh

end Act

end DotDoc
