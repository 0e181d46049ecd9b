import DotDoc.Proofs.Session.Blocks
import DotDoc.Proofs.Session.History

set_option autoImplicit false

/-!
# The history of a session

A flow that goes through its moves does something to contexts on the way, and so do the flows that
run aside or in turn with it. `Flow.Reaches` puts together, in the order of time and through all
flows, what has happened between two moments. The steps of a session tell its history
(`Step.history`, `Flow.reaches_runAll`).

At every moment each table of a context holds what results from its history
(`Flow.Reaches.table_eq`). No context is made twice (`Flow.Reaches.madeBetween`), and the active
ones have been made (`Flow.Reaches.stack_subset`).
-/

namespace DotDoc

namespace Flow

/-- What a call does to contexts where the flow stands. -/
def happenings (f : Flow) (c : Call) : History := occurred ((c.happenings f.names).run f.world).1

/-- A flow comes to be the second one by its moves, and this happens to contexts meanwhile. -/
inductive Passes : Flow → History → Flow → Prop
  | refl (f : Flow) : Passes f [] f
  | call {f g : Flow} {h : History} (c : Call) (bind : Option String) :
    Passes f h g → Passes f (h ++ g.happenings c) ((Flow.call c bind).run g).2
  | bind {f g : Flow} {h : History} (name : Option String) {v : Value} :
    Passes f h g → g.Storable v → Passes f h ((Flow.bind name v).run g).2
  | enter {f g : Flow} {h : History} :
    Passes f h g → Passes f (h ++ [.made g.world.nextIdent]) (Flow.enter.run g).2
  | finish {f g : Flow} {h : History} : Passes f h g → Passes f h (Flow.finish.run g).2
  | leave {f g : Flow} {h : History} (c : ContextId) (failed : Bool) :
    Passes f h g → Passes f h ((Flow.leave c failed).run g).2
  /-- What happens in a block on a stack of its own happens to all. -/
  | aside {f g k : Flow} {s : Stack} {h h' : History} : Passes f h g → s = g.stack ∨ s = [] →
    Passes { g with stack := s } h' k → Passes f (h ++ h') { k with stack := g.stack }

theorem Passes.later {f g : Flow} {h : History} (hfg : Passes f h g) : Later f g := by
  induction hfg with
  | refl f => exact .refl f
  | call c bind _ ih => exact ih.call c bind
  | bind name _ hv ih => exact ih.bind name hv
  | enter _ ih => exact ih.enter
  | finish _ ih => exact ih.finish
  | leave c failed _ ih => exact ih.leave c failed
  | aside _ hs _ ih ihaside => exact ih.aside hs ihaside

theorem Passes.trans {f g k : Flow} {h h' : History} (hfg : Passes f h g) (hgk : Passes g h' k) :
    Passes f (h ++ h') k := by
  induction hgk with
  | refl => exact (List.append_nil h).symm ▸ hfg
  | call c bind _ ih => exact List.append_assoc h _ _ ▸ (ih hfg).call c bind
  | bind name _ hv ih => exact (ih hfg).bind name hv
  | enter _ ih => exact List.append_assoc h _ _ ▸ (ih hfg).enter
  | finish _ ih => exact (ih hfg).finish
  | leave c failed _ ih => exact (ih hfg).leave c failed
  | aside _ hs haside ih _ => exact List.append_assoc h _ _ ▸ (ih hfg).aside hs haside

/-- Something follows that does not happen to contexts. -/
theorem Passes.then {f g k : Flow} {h : History} (hfg : Passes f h g) (hgk : Passes g [] k) :
    Passes f h k :=
  List.append_nil h ▸ hfg.trans hgk

theorem passes_entryOf (f : Flow) (bind : Option String) (failure : Option Failure) :
    Passes f [] ((entryOf bind failure).run f).2 := by
  cases failure with
  | some e => exact .refl f
  | none => exact (Passes.refl f).bind bind (.inl rfl)

/-- A block in a context that has a name begins none. -/
theorem run_blockContext (n : String) (f : Flow) : (blockContext (some n)).run f =
    (match f.names.get? n with
      | none => .error (.unbound n)
      | some v => .ok v, f) := by
  show (match f.names.get? n with
    | none => Pure.pure (.error (.unbound n))
    | some v => Pure.pure (.ok v) : FlowM (Except Failure Value)).run f = _
  cases f.names.get? n <;> rfl

end Flow

/-! ## The history that steps tell -/

mutual

/-- What a step does to contexts. -/
def Step.history : Step → Flow → History
  | .call c _, f => f.happenings c
  | .enter on _, f =>
    match ((Flow.refusal on).run f).1 with
    | some _ => []
    | none => [.made f.world.nextIdent]
  | .finish _ _, _ => []
  | .leave _ _ _, _ => []
  | .within none bind _ body, f => .made f.world.nextIdent :: historyAll body (f.blockStart bind)
  | .within (some n) bind _ body, f =>
    match f.names.get? n with
    | some (.context c) => historyAll body ((Flow.bind bind (.context c)).run f).2
    | _ => []
  | .copied body, f => historyAll body f
  | .apart body, f => historyAll body { f with stack := [] }
  | .logged body, f => historyAll body f

/-- What steps do to contexts, one after the other. -/
def historyAll : List Step → Flow → History
  | [], _ => []
  | s :: rest, f => s.history f ++ historyAll rest (s.run.run f).2

end

open DotDoc.Flow (Passes)

mutual

/-- **What happens to contexts in a step is told by the step.** -/
theorem Flow.passes_run : ∀ (s : Step) (f : Flow), Passes f (s.history f) (s.run.run f).2
  | .call c bind, f => by
    rw [Step.run, Step.history]
    exact (Passes.refl f).call c bind
  | .enter on bind, f => by
    rw [Step.run, Step.history, Flow.run_bind, Flow.run_refusal]
    cases ((Flow.refusal on).run f).1 with
    | some e => exact .refl f
    | none => exact (Passes.refl f).enter.bind bind (.inr (.inl ⟨_, rfl⟩))
  | .finish on bind, f => by
    rw [Step.run, Step.history, Flow.run_bind, Flow.run_refusal]
    cases ((Flow.refusal on).run f).1 with
    | some e => exact .refl f
    | none => exact (Passes.refl f).finish.then (Flow.passes_entryOf _ bind _)
  | .leave on failed bind, f => by
    rw [Step.run, Step.history, Flow.run_bind]
    split
    · exact .refl f
    · exact ((Passes.refl f).leave _ failed).then (Flow.passes_entryOf _ bind _)
    · exact .refl f
  | .within none bind interrupt body, f => by
    rw [Flow.run_within_new, Step.history]
    -- the context is made first, and the steps of the block follow
    have hstart : Passes f [.made f.world.nextIdent] (f.blockStart bind) :=
      (Passes.refl f).enter.bind bind (.inr (.inl ⟨_, rfl⟩))
    exact (hstart.trans (Flow.passes_runAll body _)).leave _ interrupt
  | .within (some n) bind interrupt body, f => by
    rw [Step.run, Step.history, Flow.run_bind, Flow.run_blockContext]
    cases hn : f.names.get? n with
    | none => exact .refl f
    | some v =>
        have hbound : Passes f [] ((Flow.bind bind v).run f).2 :=
          (Passes.refl f).bind bind (.inr (.inr ⟨n, hn⟩))
        cases v with
        | context c => exact (hbound.trans (Flow.passes_runAll body _)).leave c interrupt
        | _ => exact hbound
  | .copied body, f => by
    rw [Step.run, Step.history]
    exact (Passes.refl f).aside (.inl rfl) (Flow.passes_runAll body _)
  | .apart body, f => by
    rw [Step.run, Step.history]
    exact (Passes.refl f).aside (.inr rfl) (Flow.passes_runAll body _)
  | .logged body, f => by
    rw [Step.run, Step.history]
    exact Flow.passes_runAll body _

theorem Flow.passes_runAll : ∀ (ss : List Step) (f : Flow),
    Passes f (historyAll ss f) ((runAll ss).run f).2
  | [], f => by
    rw [runAll, historyAll]
    exact .refl f
  | s :: rest, f => by
    rw [runAll, historyAll]
    exact (Flow.passes_run s f).trans (Flow.passes_runAll rest _)

end

namespace History

/-! ## Contexts that are made -/

/-- Each context is made under a number of its own between the two. -/
def MadeBetween (m n : Nat) (h : History) : Prop :=
  h.made.Pairwise (· < ·) ∧ ∀ c ∈ h.made, m ≤ c ∧ c < n

theorem MadeBetween.none {m n : Nat} {h : History} (hmade : h.made = []) : h.MadeBetween m n := by
  rw [MadeBetween, hmade]
  exact ⟨.nil, fun _ hc => absurd hc List.not_mem_nil⟩

theorem MadeBetween.one (n : Nat) : MadeBetween n (n + 1) [.made n] := by
  refine ⟨List.pairwise_singleton _ n, fun c hc => ?_⟩
  rw [List.mem_singleton.1 hc]
  exact ⟨Nat.le_refl n, Nat.lt_succ_self n⟩

theorem made_append (h h' : History) : (h ++ h' : History).made = h.made ++ h'.made :=
  List.filterMap_append

/-- What is made later has greater numbers. -/
theorem MadeBetween.append {m n k : Nat} {h h' : History} (hmn : m ≤ n) (hnk : n ≤ k)
    (hh : h.MadeBetween m n) (hh' : h'.MadeBetween n k) :
    (h ++ h' : History).MadeBetween m k := by
  rw [MadeBetween, made_append]
  constructor
  · refine List.pairwise_append.2 ⟨hh.1, hh'.1, fun c hc d hd => ?_⟩
    exact Nat.lt_of_lt_of_le (hh.2 c hc).2 (hh'.2 d hd).1
  · intro c hc
    rcases List.mem_append.1 hc with hc | hc
    · exact ⟨(hh.2 c hc).1, Nat.lt_of_lt_of_le (hh.2 c hc).2 hnk⟩
    · exact ⟨Nat.le_trans hmn (hh'.2 c hc).1, (hh'.2 c hc).2⟩

end History

open Act (Yields)

/-- An update makes no context. -/
theorem Value.made_update {cs : Contexts} (v : Value) {g : Act (List (String × AttrValue))}
    (hg : Act.Quiet g) : Yields cs (fun h => h.made = []) (v.update g) := by
  unfold Value.update
  split
  · exact .after hg fun _ => .pure rfl
  · exact .pure rfl

/-- A call that is not for a new context makes none. -/
theorem Call.made_happenings {cs : Contexts} (names : Names) {c : Call} (hc : c ≠ .newContext) :
    Yields cs (fun h => h.made = []) (c.happenings names) := by
  have hattrs : ∀ items named, Act.Quiet (do return (← AttrTable.ofGiven items named).entries) :=
    fun items named => (AttrTable.quiet_ofGiven items named).bind fun _ => .pure _
  cases c with
  | newContext => exact absurd rfl hc
  | attr on key v =>
      refine .after (names.quiet_readFor _ on) fun owner => ?_
      refine .after (key.quiet_eval names) fun key => ?_
      refine .after (v.quiet_eval names) fun v => ?_
      exact owner.made_update (AttrTable.quiet_givenEntry key v)
  | attrs on items more =>
      refine .after (names.quiet_readFor _ on) fun owner => ?_
      refine .after (quiet_mapM_eval names items) fun items => ?_
      refine .after (quiet_evalNamed names more) fun more => ?_
      refine .after (quiet_splitArgument _ items more) fun given => ?_
      refine .after (quiet_refuseNames _ given.2) fun _ => ?_
      exact owner.made_update (hattrs _ given.2)
  | field on field index =>
      cases field with
      | attrs => exact .after (names.quiet_read on) fun owner => owner.made_update (hattrs .none [])
      | _ => exact .pure rfl
  | _ => exact .pure rfl

namespace Flow

/-- A call makes a context under the next number, if it makes one. -/
theorem madeBetween_call (f : Flow) (c : Call) (bind : Option String) :
    (f.happenings c).MadeBetween f.world.nextIdent
      ((Flow.call c bind).run f).2.world.nextIdent := by
  by_cases hc : c = .newContext
  · subst hc
    cases bind <;> exact .one f.world.nextIdent
  · apply History.MadeBetween.none
    unfold happenings
    cases hr : ((c.happenings f.names).run f.world).1 with
    | error e => rfl
    | ok h => exact Call.made_happenings f.names hc f.world rfl h hr

theorem Passes.madeBetween {f g : Flow} {h : History} (hfg : Passes f h g) :
    h.MadeBetween f.world.nextIdent g.world.nextIdent := by
  induction hfg with
  | refl f => exact .none rfl
  | @call f g h c bind hfg ih =>
      exact ih.append hfg.later.nextIdent_le ((Later.refl g).call c bind).nextIdent_le
        (madeBetween_call g c bind)
  | bind name _ _ ih => cases name <;> exact ih
  | enter hfg ih => exact ih.append hfg.later.nextIdent_le (Nat.le_succ _) (.one _)
  | @finish f g h _ ih => exact (nextIdent_finish g).symm ▸ ih
  | @leave f g h c failed _ ih => exact (nextIdent_leave c failed g).symm ▸ ih
  | aside hfg _ haside ih ihaside =>
      exact ih.append hfg.later.nextIdent_le haside.later.nextIdent_le ihaside

/-- What is active was active before or has been made since. -/
theorem Passes.stack_subset {f g : Flow} {h : History} (hfg : Passes f h g) :
    ∀ c ∈ g.stack, c ∈ f.stack ∨ c ∈ h.made := by
  induction hfg with
  | refl f => exact fun c hc => .inl hc
  | @call f g h d bind _ ih =>
      intro c hc
      rw [stack_call] at hc
      rw [History.made_append]
      exact (ih c hc).imp_right (List.mem_append_left _)
  | bind name _ _ ih => cases name <;> exact ih
  | @enter f g h _ ih =>
      intro c hc
      rw [History.made_append]
      -- the new context is on top, and the others were active before
      rcases List.mem_cons.1 hc with rfl | hc
      · exact .inr (List.mem_append_right _ (List.mem_singleton_self _))
      · exact (ih c hc).imp_right (List.mem_append_left _)
  | @finish f g h _ ih =>
      intro c hc
      rw [stack_finish] at hc
      exact ih c (List.mem_of_mem_drop hc)
  | @leave f g h d failed _ ih =>
      intro c hc
      obtain ⟨k, hk⟩ := stack_leave d failed g
      rw [hk] at hc
      exact ih c (List.mem_of_mem_drop hc)
  | @aside f g k s h h' _ _ _ ih _ =>
      -- what the block made may be gone or not: the stack is that from before it
      intro c hc
      rw [History.made_append]
      exact (ih c hc).imp_right (List.mem_append_left _)

/-! ## What contexts hold -/

theorem world_bind (name : Option String) (v : Value) (f : Flow) :
    ((Flow.bind name v).run f).2.world = f.world := by
  cases name <;> rfl

theorem world_call (c : Call) (bind : Option String) (f : Flow) :
    ((Flow.call c bind).run f).2.world = ((Act.perform f.stack f.names c).run f.world).2 := by
  rw [run_call]
  cases ((Act.perform f.stack f.names c).run f.world).1 with
  | error e => rfl
  | ok answer => exact world_bind bind answer.stored _

theorem contexts_finish (f : Flow) : (Flow.finish.run f).2.world.contexts = f.world.contexts := by
  rw [run_finish]
  cases f.stack <;> rfl

theorem contexts_leave (c : ContextId) (failed : Bool) (f : Flow) :
    ((Flow.leave c failed).run f).2.world.contexts = f.world.contexts := by
  rw [run_leave]
  cases f.stack.leave c <;> rfl

/-- **A table of a context is what it was, with what has happened since carried out on it.** -/
theorem Passes.table_eq {f g : Flow} {h : History} (hfg : Passes f h g) (c : ContextId)
    (slot : ElementKind) :
    g.world.contexts.table c slot = h.replay c slot (f.world.contexts.table c slot) := by
  induction hfg with
  | refl f => rfl
  | @call f g h d bind _ ih =>
      -- storing the answer does not touch the world
      rw [world_call, (Act.perform_does g.stack g.names d).tables, History.replay_append, ih]
      rfl
  | @bind f g h name v _ _ ih => rw [world_bind, ih]
  | @enter f g h _ ih =>
      rw [History.replay_append, ← ih]
      exact Contexts.table_set_none g.world.contexts c g.world.nextIdent slot
  | @finish f g h _ ih => rw [contexts_finish, ih]
  | @leave f g h d failed _ ih => rw [contexts_leave, ih]
  | @aside f g k s h h' _ _ _ ih ihaside =>
      rw [History.replay_append, ← ih]
      exact ihaside

/-! ## Moments and what has happened until then -/

/-- From one moment of a session to another one this happens to contexts. The lists are the stacks of
the flows that are not running at the two moments: a flow may start another one, on a copy of its
stack or without active contexts, and the flows may take turns in any way. -/
inductive Reaches (f : Flow) (ws : List Stack) : History → Flow → List Stack → Prop
  | refl : Reaches f ws [] f ws
  | later {g k : Flow} {vs : List Stack} {h h' : History} :
    Reaches f ws h g vs → Passes g h' k → Reaches f ws (h ++ h') k vs
  | start {g : Flow} {vs : List Stack} {s : Stack} {h : History} :
    Reaches f ws h g vs → s = g.stack ∨ s = [] →
      Reaches f ws h { g with stack := s } (g.stack :: vs)
  | turn {g : Flow} {vs : List Stack} {s : Stack} {h : History} :
    Reaches f ws h g vs → s ∈ vs → Reaches f ws h { g with stack := s } (g.stack :: vs.erase s)

/-- **The steps of a session tell its history.** -/
theorem reaches_runAll (ss : List Step) (f : Flow) (ws : List Stack) :
    Reaches f ws (historyAll ss f) ((runAll ss).run f).2 ws :=
  Reaches.refl.later (passes_runAll ss f)

section Reaches

variable {f g : Flow} {ws vs : List Stack} {h : History}

theorem Reaches.nextIdent_le (hfg : Reaches f ws h g vs) :
    f.world.nextIdent ≤ g.world.nextIdent := by
  induction hfg with
  | refl => exact Nat.le_refl _
  | later _ hgk ih => exact Nat.le_trans ih hgk.later.nextIdent_le
  | start _ _ ih => exact ih
  | turn _ _ ih => exact ih

theorem Reaches.madeBetween (hfg : Reaches f ws h g vs) :
    h.MadeBetween f.world.nextIdent g.world.nextIdent := by
  induction hfg with
  | refl => exact .none rfl
  | later hfg hgk ih => exact ih.append hfg.nextIdent_le hgk.later.nextIdent_le hgk.madeBetween
  | start _ _ ih => exact ih
  | turn _ _ ih => exact ih

theorem Reaches.table_eq (hfg : Reaches f ws h g vs) (c : ContextId) (slot : ElementKind) :
    g.world.contexts.table c slot = h.replay c slot (f.world.contexts.table c slot) := by
  induction hfg with
  | refl => rfl
  | later _ hgk ih => rw [hgk.table_eq, ih, History.replay_append]
  | start _ _ ih => exact ih
  | turn _ _ ih => exact ih

/-- The active contexts of all flows were active before or have been made since. -/
theorem Reaches.stack_subset (hfg : Reaches f ws h g vs) : ∀ s ∈ g.stack :: vs, ∀ c ∈ s,
    (∃ t ∈ f.stack :: ws, c ∈ t) ∨ c ∈ h.made := by
  induction hfg with
  | refl => exact fun s hs c hc => .inl ⟨s, hs, hc⟩
  | @later g k vs h h' _ hgk ih =>
      intro s hs c hc
      rw [History.made_append]
      have hold : ∀ t ∈ g.stack :: vs, c ∈ t →
          (∃ t ∈ f.stack :: ws, c ∈ t) ∨ c ∈ h.made ++ h'.made := fun t ht hct =>
        (ih t ht c hct).imp_right (List.mem_append_left _)
      -- only the stack of the flow that runs can have changed
      rcases List.mem_cons.1 hs with rfl | hs
      · rcases hgk.stack_subset c hc with hc | hc
        · exact hold _ List.mem_cons_self hc
        · exact .inr (List.mem_append_right _ hc)
      · exact hold s (List.mem_cons_of_mem _ hs) hc
  | start _ hs ih =>
      intro t ht c hc
      rcases List.mem_cons.1 ht with rfl | ht
      · rcases hs with rfl | rfl
        · exact ih _ List.mem_cons_self c hc
        · exact absurd hc List.not_mem_nil
      · exact ih t ht c hc
  | turn _ hs ih =>
      intro t ht c hc
      rcases List.mem_cons.1 ht with rfl | ht
      · exact ih _ (List.mem_cons_of_mem _ hs) c hc
      · rcases List.mem_cons.1 ht with rfl | ht
        · exact ih _ List.mem_cons_self c hc
        · exact ih t (List.mem_cons_of_mem _ (List.mem_of_mem_erase ht)) c hc

end Reaches

end Flow

end DotDoc
