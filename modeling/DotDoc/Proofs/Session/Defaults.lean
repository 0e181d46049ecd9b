import DotDoc.Proofs.Session.Built
import DotDoc.Proofs.Session.Chronicle
import DotDoc.Proofs.Session.Constructions

set_option autoImplicit false

/-!
# Defaults follow the history of the innermost context

At every moment of a session, in whichever flow and however the flows take turns, the defaults in
effect result from what has happened to the innermost active context since it was made, and from
nothing else. New elements start out with them, and nothing that happens later changes an element
that is there already (`Flow.Reaches.defaultsFollow`).
-/

namespace DotDoc

namespace Flow

variable {f g : Flow} {ws vs : List Stack} {h : History}

theorem Reaches.known {I : Registry → Nat → Prop} (hK : Registry.Keeps I)
    (hfg : Reaches f ws h g vs) : ∀ σ, f.Known I σ → ∃ τ, σ ≤ τ ∧ g.Known I τ := by
  induction hfg with
  | refl => exact fun σ hf => ⟨σ, le_refl σ, hf⟩
  | later _ hgk ih =>
      intro σ hf
      obtain ⟨τ, hτ, hg⟩ := ih σ hf
      obtain ⟨υ, hυ, hk⟩ := hgk.later.known hK τ hg
      exact ⟨υ, le_trans hτ hυ, hk⟩
  | start _ _ ih =>
      intro σ hf
      obtain ⟨τ, hτ, hg⟩ := ih σ hf
      exact ⟨τ, hτ, hg.kept, hg.names⟩
  | turn _ _ ih =>
      intro σ hf
      obtain ⟨τ, hτ, hg⟩ := ih σ hf
      exact ⟨τ, hτ, hg.kept, hg.names⟩

/-- At every moment of a session what is known fits an exact registry. -/
theorem Reaches.exact (hf : Reaches initial [] h f ws) : ∃ σ, f.Known Registry.Exact σ := by
  obtain ⟨σ, hσ⟩ := (Later.refl initial).exact
  obtain ⟨τ, -, hτ⟩ := hf.known Registry.keeps_exact σ hσ
  exact ⟨τ, hτ⟩

/-- The element is found in what is stored under some name. -/
def Stores (f : Flow) (e : Value) : Prop :=
  ∃ n v, f.names.get? n = some v ∧ Relation.ReflTransGen Value.Part v e

/-- **An element that is stored stays as it is.** What is found later under its number is the same
element. -/
theorem Reaches.kept (hf : Reaches initial [] h f ws) {h' : History} (hfg : Reaches f ws h' g vs) {a b : Value}
    (ha : f.Stores a) (hb : g.Stores b) {i : Nat} (hia : a.elementIdent? = some i)
    (hib : b.elementIdent? = some i) : a = b := by
  obtain ⟨σ, hσ⟩ := hf.exact
  obtain ⟨τ, hτ, hg⟩ := hfg.known Registry.keeps_exact σ hσ
  obtain ⟨m, v, hv, hva⟩ := ha
  obtain ⟨n, w, hw, hwb⟩ := hb
  -- both are recorded under the number, the first one since it was there
  have hra : τ i a := hτ i a (hσ.names m v hv a hva i (Value.number?_of_elementIdent? hia))
  have hrb : τ i b := hg.names n w hw b hwb i (Value.number?_of_elementIdent? hib)
  exact hg.kept.unique hra hrb

/-- At every moment of a session the tables of contexts result from the history. -/
theorem Reaches.table_eq_history (hf : Reaches initial [] h f ws) (c : ContextId) (slot : ElementKind) :
    f.world.contexts.table c slot = h.table c slot := by
  rw [hf.table_eq]
  cases slot <;> rfl

theorem Reaches.effective_eq (hf : Reaches initial [] h f ws) :
    f.world.contexts.effective f.stack = h.defaults f.stack := by
  funext kind
  cases f.stack with
  | nil => rfl
  | cons c rest => exact hf.table_eq_history c kind

/-- The flow where the contexts hold something else. -/
def withContexts (f : Flow) (cs : Contexts) : Flow :=
  { f with world := { f.world with contexts := cs } }

/-- To end the innermost context, its tables need not be looked at. -/
theorem finish_withContexts (f : Flow) (cs : Contexts) : Flow.finish.run (f.withContexts cs) =
    ((Flow.finish.run f).1, (Flow.finish.run f).2.withContexts cs) := by
  obtain ⟨stack, world, names⟩ := f
  cases stack <;> rfl

/-- To leave a context, only its own tables are looked at, for they may be shown. -/
theorem leave_withContexts (f : Flow) (c : ContextId) (failed : Bool) {cs : Contexts}
    (hcs : cs.defaults c = f.world.contexts.defaults c) :
    (Flow.leave c failed).run (f.withContexts cs) =
      (((Flow.leave c failed).run f).1, ((Flow.leave c failed).run f).2.withContexts cs) := by
  have hstack : (f.withContexts cs).stack = f.stack := rfl
  rw [run_leave, run_leave, hstack]
  cases f.stack.leave c with
  | inactive =>
      show (some (Failure.inactiveContext (cs.defaults c).debug), _) = _
      rw [hcs]
  | left rest innermost =>
      show (if innermost || failed then none
        else some (Failure.openInnerContexts (cs.defaults c).debug), _) = _
      rw [hcs]
      rfl

/-- What is said of defaults at a moment of a session until which this has happened to contexts. The
defaults in effect are `h.defaults f.stack`: none without an active context, and else what the
updates of the innermost one result in. The list has the stacks of the other flows. -/
structure DefaultsFollow (f : Flow) (ws : List Stack) (h : History) : Prop where
  /-- No context is made twice, and the active ones of all flows have been made. -/
  made : h.made.Nodup ∧ ∀ s ∈ f.stack :: ws, ∀ c ∈ s, c ∈ h.made
  /-- A call that fails does nothing to contexts. -/
  failed : ∀ c e, ((Act.perform f.stack f.names c).run f.world).1 = .error e →
    f.happenings c = []
  /-- An element that is constructed has its explicit attributes laid over the defaults. -/
  constructed : ∀ (k : Construction) (w : World), w.contexts = f.world.contexts →
    ∀ e, ((k.carryOut f.stack).run w).1 = .ok e →
      ∃ own, ((AttrTable.ofGiven k.attrs []).run f.world).1 = .ok own ∧
        e.StartsOut k.kind (h.defaults f.stack k.kind) own
  /-- This is what a call for an element with attributes gives. -/
  called : ∀ c a, f.names.construction? c = some a →
    ∀ answer, ((Act.perform f.stack f.names c).run f.world).1 = .ok answer →
      ∃ k e own, (a.run f.world).1 = .ok k ∧ answer = .value e ∧
        ((AttrTable.ofGiven k.attrs []).run f.world).1 = .ok own ∧
        e.StartsOut k.kind (h.defaults f.stack k.kind) own
  /-- A value becomes a link with the bare defaults, unless it is a link already. -/
  linkOf : ∀ target answer,
    ((Act.perform f.stack f.names (.linkOf target)).run f.world).1 = .ok answer →
      ∃ v l, ((target.eval f.names).run f.world).1 = .ok v ∧ answer = .value (.link l) ∧
        (v = .link l ∨ l.attrs = h.defaults f.stack .link)
  /-- A node or graph that is linked further keeps its attributes, and links that it neither had nor
  was given as links have the bare defaults. -/
  linked : ∀ on targets answer,
    ((Act.perform f.stack f.names (.link on targets)).run f.world).1 = .ok answer →
      ∃ v vs u, f.names.get? on = some v ∧ ((evalItems f.names targets).run f.world).1 = .ok vs ∧
        answer = .value u ∧ u.element? = v.element? ∧
        ∀ l, Value.Part u (.link l) → Value.Part v (.link l) ∨ .link l ∈ vs ∨
          l.attrs = h.defaults f.stack .link
  /-- All elements of a new chain or nest have the bare defaults. -/
  chained : ∀ c stem count, c = .chain stem count ∨ c = .nest stem count →
    ∀ answer, ((Act.perform f.stack f.names c).run f.world).1 = .ok answer →
      ∃ v, answer = .value v ∧ ∀ e, Relation.ReflTransGen Value.Part v e →
        ∀ kind t, e.element? = some (kind, t) → t = h.defaults f.stack kind
  /-- Asked about the active contexts, a session answers with the defaults and the innermost
  context. -/
  asked : (∃ d, ((Act.perform f.stack f.names .defaults).run f.world).1 =
      .ok (.defaults d f.stack.depth) ∧ ∀ kind, d.get kind = h.defaults f.stack kind) ∧
    ((Act.perform f.stack f.names .current).run f.world).1 =
      .ok (.value (f.stack.head?.elim .none .context))
  /-- Any other call is the same whatever contexts are active. -/
  unread : ∀ c, c.constructs = false → c.asksContexts = false →
    ∀ active, Act.perform active f.names c = Act.perform f.stack f.names c
  /-- So is linking to what are links already. -/
  unreadLinks : ∀ v (ls : List (Link Value)) active,
    Act.addLinks active v (ls.map .link) = Act.addLinks f.stack v (ls.map .link)
  /-- Beginning, ending and leaving a context go the same way whatever the active contexts hold; the
  context that is left may be shown. -/
  moved : ∀ cs, Flow.enter.run (f.withContexts cs) = ((Flow.enter.run f).1,
      (Flow.enter.run f).2.withContexts (cs.set f.world.nextIdent .none)) ∧
    Flow.finish.run (f.withContexts cs) =
      ((Flow.finish.run f).1, (Flow.finish.run f).2.withContexts cs) ∧
    ∀ c failed, cs.defaults c = f.world.contexts.defaults c →
      (Flow.leave c failed).run (f.withContexts cs) =
        (((Flow.leave c failed).run f).1, ((Flow.leave c failed).run f).2.withContexts cs)
  /-- Whatever happens later, an element that is there stays as it is. -/
  kept : ∀ h' g vs, Reaches f ws h' g vs → ∀ a b i, f.Stores a → g.Stores b →
    a.elementIdent? = some i → b.elementIdent? = some i → a = b

/-- **At every moment of a session defaults follow the history of the innermost context.** -/
theorem Reaches.defaultsFollow (hf : Reaches initial [] h f ws) : f.DefaultsFollow ws h where
  made := by
    refine ⟨hf.madeBetween.1.imp Nat.ne_of_lt, fun s hs c hc => ?_⟩
    -- nothing was active at the beginning
    refine (hf.stack_subset s hs c hc).resolve_left ?_
    rintro ⟨t, ht, hct⟩
    obtain rfl := List.mem_singleton.1 ht
    exact absurd hct List.not_mem_nil
  failed c := (Act.perform_does f.stack f.names c).failed f.world
  constructed k w hw e he := by
    obtain ⟨own, hown, hstarts⟩ := k.yields_carryOut f.stack w hw e he
    exact ⟨own, hown f.world rfl, hf.effective_eq ▸ hstarts⟩
  called c a hc answer hanswer := by
    rw [← hf.effective_eq]
    exact Act.startsOut_of_perform hc hanswer
  linkOf target answer hanswer := by
    rw [← hf.effective_eq]
    exact Act.link_of_perform hanswer
  linked on targets answer hanswer := by
    rw [← hf.effective_eq]
    exact Act.linked_of_perform hanswer
  chained c stem count hc answer hanswer := by
    rw [← hf.effective_eq]
    exact Act.uniform_of_perform hc hanswer
  asked := by
    rw [← hf.effective_eq]
    exact ⟨Act.run_perform_defaults f.stack f.names f.world, rfl⟩
  unread c hc hasks active := Act.perform_unread f.names hc hasks active f.stack
  unreadLinks v ls active := Act.addLinks_unread v ls active f.stack
  moved cs := ⟨rfl, f.finish_withContexts cs, fun c failed => f.leave_withContexts c failed⟩
  kept h' g vs hg a b i ha hb hia hib := hf.kept hg ha hb hia hib

/-- Defaults are set in a context, and then by a flow in which another context is innermost; one
update fails. -/
def sharedSteps : List Step :=
  [.enter none (some "outer"),
    .call (.view "outer" (.ofContext .node)) (some "nodes"),
    .call (.attr "nodes" (.text "shape") (.text "box")) none,
    .copied
      [.enter none none,
        .call (.attr "nodes" (.list []) (.text "no key")) none,
        .call (.attr "nodes" (.text "color") (.text "red")) none]]

theorem defaultsFollow_shared :
    historyAll sharedSteps initial = [.made 1, .updated 1 .node [("shape", .text "box")], .made 3,
      .updated 1 .node [("color", .text "red")]] ∧
    ((runAll sharedSteps).run initial).2.stack = [1] ∧
    Reaches initial [] (historyAll sharedSteps initial) ((runAll sharedSteps).run initial).2 [] ∧
    ((runAll sharedSteps).run initial).2.DefaultsFollow [] (historyAll sharedSteps initial) := by
  have hreaches := reaches_runAll sharedSteps initial []
  exact ⟨by decide +kernel, by decide +kernel, hreaches, hreaches.defaultsFollow⟩

end Flow

end DotDoc
