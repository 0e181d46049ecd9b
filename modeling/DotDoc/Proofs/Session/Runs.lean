import DotDoc.Proofs.Context.Stack
import DotDoc.Proofs.Session.Calls
import DotDoc.Session.Run

set_option autoImplicit false

/-!
# What a flow goes through

The moves of a flow are calls, storing a value, beginning, ending and leaving contexts, and blocks
that run aside on a stack of their own (`Flow.Later`). Running steps is a sequence of such moves
(`Flow.later_runAll`), so what every move keeps holds at every moment of every run.

Two things are kept. What is stored under names stays known (`Flow.Later.known`). And from a stack
contexts are only taken off the top, and new ones put on it (`Flow.Later.grown`).
-/

namespace DotDoc

namespace Flow

/-- What may be stored under a name besides the result of a call: nothing, a context, or a value
that has a name. -/
def Storable (f : Flow) (v : Value) : Prop :=
  v = .none ∨ (∃ c, v = .context c) ∨ ∃ n, f.names.get? n = some v

/-- A flow comes to be the second one by its moves. -/
inductive Later : Flow → Flow → Prop
  | refl (f : Flow) : Later f f
  | call {f g : Flow} (c : Call) (bind : Option String) :
    Later f g → Later f ((Flow.call c bind).run g).2
  | bind {f g : Flow} (name : Option String) {v : Value} :
    Later f g → g.Storable v → Later f ((Flow.bind name v).run g).2
  | enter {f g : Flow} : Later f g → Later f (Flow.enter.run g).2
  | finish {f g : Flow} : Later f g → Later f (Flow.finish.run g).2
  | leave {f g : Flow} (c : ContextId) (failed : Bool) :
    Later f g → Later f ((Flow.leave c failed).run g).2
  /-- A block on the same stack or on an empty one leaves the stack of the flow as it was. -/
  | aside {f g h : Flow} {s : Stack} : Later f g → s = g.stack ∨ s = [] →
    Later { g with stack := s } h → Later f { h with stack := g.stack }

theorem Later.trans {f g h : Flow} (hfg : Later f g) (hgh : Later g h) : Later f h := by
  induction hgh with
  | refl => exact hfg
  | call c bind _ ih => exact (ih hfg).call c bind
  | bind name _ hv ih => exact (ih hfg).bind name hv
  | enter _ ih => exact (ih hfg).enter
  | finish _ ih => exact (ih hfg).finish
  | leave c failed _ ih => exact (ih hfg).leave c failed
  | aside _ hs haside ih _ => exact (ih hfg).aside hs haside

/-! ## Running steps -/

theorem run_bind {α β : Type} (a : FlowM α) (b : α → FlowM β) (f : Flow) :
    (a >>= b).run f = (b (a.run f).1).run (a.run f).2 := rfl

theorem run_refusal (on : Option String) (f : Flow) : ((refusal on).run f).2 = f := by
  cases on with
  | none => rfl
  | some n =>
      unfold refusal
      rw [run_bind]
      split <;> rfl

theorem later_entryOf {f g : Flow} (h : Later f g) (bind : Option String)
    (failure : Option Failure) : Later f ((entryOf bind failure).run g).2 := by
  cases failure with
  | some e => exact h
  | none => exact h.bind bind (.inl rfl)

/-- What a block is to run in can be stored. -/
theorem later_blockContext (context : Option String) (f : Flow) :
    Later f ((blockContext context).run f).2 ∧
      ∀ v, ((blockContext context).run f).1 = .ok v →
        ((blockContext context).run f).2.Storable v := by
  cases context with
  | none =>
      refine ⟨(Later.refl f).enter, ?_⟩
      intro v hv
      cases hv
      exact .inr (.inl ⟨_, rfl⟩)
  | some n =>
      unfold blockContext
      rw [run_bind]
      split
      · refine ⟨.refl f, ?_⟩
        intro v hv
        cases hv
      · rename_i u hn
        refine ⟨.refl f, ?_⟩
        intro v hv
        cases hv
        exact .inr (.inr ⟨n, hn⟩)

end Flow

open DotDoc.Flow (Later)

mutual

/-- **A step is a sequence of moves of the flow.** -/
theorem Flow.later_run : ∀ (s : Step) (f : Flow), Later f (s.run.run f).2
  | .call c bind, f => by
    rw [Step.run]
    exact (Later.refl f).call c bind
  | .enter on bind, f => by
    rw [Step.run, Flow.run_bind, Flow.run_refusal]
    cases ((Flow.refusal on).run f).1 with
    | some e => exact .refl f
    | none => exact (Later.refl f).enter.bind bind (.inr (.inl ⟨_, rfl⟩))
  | .finish on bind, f => by
    rw [Step.run, Flow.run_bind, Flow.run_refusal]
    cases ((Flow.refusal on).run f).1 with
    | some e => exact .refl f
    | none => exact Flow.later_entryOf (Later.refl f).finish bind _
  | .leave on failed bind, f => by
    rw [Step.run, Flow.run_bind]
    split
    · exact .refl f
    · exact Flow.later_entryOf ((Later.refl f).leave _ failed) bind _
    · exact .refl f
  | .within context bind interrupt body, f => by
    rw [Step.run, Flow.run_bind]
    obtain ⟨hlater, hstorable⟩ := Flow.later_blockContext context f
    -- the steps run only where there is a context to leave after them
    cases hv : ((Flow.blockContext context).run f).1 with
    | error e => exact hlater
    | ok v =>
        have hbound := hlater.bind bind (hstorable v hv)
        cases v with
        | context c =>
            exact (hbound.trans (Flow.later_runAll body _)).leave c interrupt
        | _ => exact hbound
  | .copied body, f => by
    rw [Step.run]
    exact (Later.refl f).aside (.inl rfl) (Flow.later_runAll body _)
  | .apart body, f => by
    rw [Step.run]
    exact (Later.refl f).aside (.inr rfl) (Flow.later_runAll body _)
  | .logged body, f => by
    rw [Step.run]
    exact Flow.later_runAll body _

theorem Flow.later_runAll : ∀ (ss : List Step) (f : Flow), Later f ((runAll ss).run f).2
  | [], f => by
    rw [runAll]
    exact .refl f
  | s :: rest, f => by
    rw [runAll]
    exact (Flow.later_run s f).trans (Flow.later_runAll rest _)

end

namespace Flow

/-! ## What is known -/

variable {I : Registry → Nat → Prop} {σ : Registry}

/-- The bookkeeping fits the next number, and all that is stored under names is known. -/
structure Known (I : Registry → Nat → Prop) (σ : Registry) (f : Flow) : Prop where
  kept : I σ f.world.nextIdent
  names : σ.KnowsNames f.names

theorem Known.bind {f : Flow} (hf : f.Known I σ) (name : Option String) {v : Value}
    (hv : σ.Knows v) : ((Flow.bind name v).run f).2.Known I σ := by
  cases name with
  | none => exact hf
  | some n => exact ⟨hf.kept, hf.names.set n hv⟩

theorem Known.knows {f : Flow} (hf : f.Known I σ) {v : Value} (hv : f.Storable v) : σ.Knows v := by
  rcases hv with rfl | ⟨c, rfl⟩ | ⟨n, hn⟩
  · exact .plain rfl fun _ hw => by cases hw
  · exact .plain rfl fun _ hw => by cases hw
  · exact hf.names n v hn

theorem run_call (c : Call) (bind : Option String) (f : Flow) :
    ((Flow.call c bind).run f).2 =
      match ((Act.perform f.stack f.names c).run f.world).1 with
      | .error _ => { f with world := ((Act.perform f.stack f.names c).run f.world).2 }
      | .ok answer => ((Flow.bind bind answer.stored).run
          { f with world := ((Act.perform f.stack f.names c).run f.world).2 }).2 := by
  unfold Flow.call
  rw [run_bind]
  show ((match ((Act.perform f.stack f.names c).run f.world).1 with
    | .error e => Pure.pure (Entry.failed e)
    | .ok answer => do
      Flow.bind bind answer.stored
      return .result (answer.report (← get).world.contexts) : FlowM Entry).run
    { f with world := ((Act.perform f.stack f.names c).run f.world).2 }).2 = _
  cases ((Act.perform f.stack f.names c).run f.world).1 <;> rfl

theorem stack_call (c : Call) (bind : Option String) (f : Flow) :
    ((Flow.call c bind).run f).2.stack = f.stack := by
  rw [run_call]
  cases ((Act.perform f.stack f.names c).run f.world).1 with
  | error e => rfl
  | ok answer => cases bind <;> rfl

/-- A call leaves what is stored known. -/
theorem Known.call (hK : Registry.Keeps I) {f : Flow} (hf : f.Known I σ) (c : Call)
    (bind : Option String) : ∃ τ, σ ≤ τ ∧ ((Flow.call c bind).run f).2.Known I τ := by
  obtain ⟨τ, hτ, hkept, hgives⟩ :=
    Act.perform_gives hK f.stack hf.names c σ f.world (le_refl σ) hf.kept
  refine ⟨τ, hτ, ?_⟩
  rw [run_call]
  cases hr : ((Act.perform f.stack f.names c).run f.world).1 with
  | error e => exact ⟨hkept, hf.names.mono hτ⟩
  | ok answer =>
      have hknown : Known I τ { f with world := ((Act.perform f.stack f.names c).run f.world).2 } :=
        ⟨hkept, hf.names.mono hτ⟩
      exact hknown.bind bind (hgives answer hr)

theorem run_finish (f : Flow) : (Flow.finish.run f).2 = match f.stack with
    | [] => f
    | _ :: rest => ((report (.ended f.stack.depth)).run { f with stack := rest }).2 := by
  unfold Flow.finish
  rw [run_bind]
  show ((match f.stack with
    | [] => Pure.pure (some Failure.unmatchedEnd)
    | _ :: rest => do
      set { f with stack := rest }
      report (.ended f.stack.depth)
      return none : FlowM (Option Failure)).run f).2 = _
  cases f.stack <;> rfl

theorem run_leave (c : ContextId) (failed : Bool) (f : Flow) :
    ((Flow.leave c failed).run f) = match f.stack.leave c with
      | .inactive => (some (.inactiveContext (f.world.contexts.defaults c).debug), f)
      | .left rest innermost =>
        (if innermost || failed then none
          else some (.openInnerContexts (f.world.contexts.defaults c).debug),
        ((report (.ended (rest.depth + 1))).run { f with stack := rest }).2) := by
  unfold Flow.leave
  rw [run_bind]
  show (match f.stack.leave c with
    | .inactive => Pure.pure (some (.inactiveContext (f.world.contexts.defaults c).debug))
    | .left rest innermost => do
      set { f with stack := rest }
      report (.ended (rest.depth + 1))
      return if innermost || failed then none
        else some (.openInnerContexts (f.world.contexts.defaults c).debug) :
      FlowM (Option Failure)).run f = _
  cases f.stack.leave c <;> rfl

theorem nextIdent_finish (f : Flow) :
    (Flow.finish.run f).2.world.nextIdent = f.world.nextIdent := by
  rw [run_finish]
  cases f.stack <;> rfl

theorem names_finish (f : Flow) : (Flow.finish.run f).2.names = f.names := by
  rw [run_finish]
  cases f.stack <;> rfl

theorem stack_finish (f : Flow) : (Flow.finish.run f).2.stack = f.stack.drop 1 := by
  rw [run_finish]
  cases h : f.stack with
  | nil => exact h
  | cons c rest => rfl

theorem nextIdent_leave (c : ContextId) (failed : Bool) (f : Flow) :
    ((Flow.leave c failed).run f).2.world.nextIdent = f.world.nextIdent := by
  rw [run_leave]
  cases f.stack.leave c <;> rfl

theorem names_leave (c : ContextId) (failed : Bool) (f : Flow) :
    ((Flow.leave c failed).run f).2.names = f.names := by
  rw [run_leave]
  cases f.stack.leave c <;> rfl

theorem stack_leave (c : ContextId) (failed : Bool) (f : Flow) :
    ∃ k, ((Flow.leave c failed).run f).2.stack = f.stack.drop k := by
  rw [run_leave]
  by_cases hc : c ∈ f.stack
  · obtain ⟨above, below, hs, -, hleave⟩ := Stack.leave_of_mem hc
    refine ⟨above.length + 1, ?_⟩
    rw [hleave, hs]
    show below = _
    rw [List.drop_append]
    simp
  · rw [Stack.leave_of_notMem hc]
    exact ⟨0, rfl⟩

/-- **What is stored under names stays known, whatever the flow goes through.** -/
theorem Later.known (hK : Registry.Keeps I) {f g : Flow} (h : Later f g) :
    ∀ σ, f.Known I σ → ∃ τ, σ ≤ τ ∧ g.Known I τ := by
  induction h with
  | refl f => exact fun σ hf => ⟨σ, le_refl σ, hf⟩
  | call c bind _ ih =>
      intro σ hf
      obtain ⟨τ, hτ, hg⟩ := ih σ hf
      obtain ⟨υ, hυ, hg⟩ := hg.call hK c bind
      exact ⟨υ, le_trans hτ hυ, hg⟩
  | bind name _ hv ih =>
      intro σ hf
      obtain ⟨τ, hτ, hg⟩ := ih σ hf
      exact ⟨τ, hτ, hg.bind name (hg.knows hv)⟩
  | enter _ ih =>
      -- a context takes a number, but nothing is recorded under it
      intro σ hf
      obtain ⟨τ, hτ, hg⟩ := ih σ hf
      exact ⟨τ, hτ, hK.skip hg.kept, hg.names⟩
  | @finish f g _ ih =>
      intro σ hf
      obtain ⟨τ, hτ, hg⟩ := ih σ hf
      exact ⟨τ, hτ, (nextIdent_finish g).symm ▸ hg.kept, (names_finish g).symm ▸ hg.names⟩
  | @leave f g c failed _ ih =>
      intro σ hf
      obtain ⟨τ, hτ, hg⟩ := ih σ hf
      exact ⟨τ, hτ, (nextIdent_leave c failed g).symm ▸ hg.kept,
        (names_leave c failed g).symm ▸ hg.names⟩
  | aside _ _ _ ih ihaside =>
      intro σ hf
      obtain ⟨τ, hτ, hg⟩ := ih σ hf
      obtain ⟨υ, hυ, hh⟩ := ihaside τ ⟨hg.kept, hg.names⟩
      exact ⟨υ, le_trans hτ hυ, hh.kept, hh.names⟩

/-! ## Numbers and stacks -/

/-- Numbers are handed out in increasing order. -/
theorem Later.nextIdent_le {f g : Flow} (h : Later f g) :
    f.world.nextIdent ≤ g.world.nextIdent := by
  -- being at least the first number is kept when numbers are handed out
  have hK : Registry.Keeps fun _ n => f.world.nextIdent ≤ n :=
    ⟨Nat.le_succ_of_le, fun h _ _ => Nat.le_succ_of_le h⟩
  obtain ⟨_, _, hg⟩ := h.known hK (fun _ _ => True)
    ⟨Nat.le_refl _, fun _ _ _ _ _ _ _ => trivial⟩
  exact hg.kept

/-- **From a stack contexts are taken off the top, and new ones are put on it.** -/
theorem Later.grown {f g : Flow} (h : Later f g) :
    Stack.Grown f.world.nextIdent g.world.nextIdent f.stack g.stack := by
  induction h with
  | refl f => exact .refl _ _ _
  | @call f g c bind h ih =>
      rw [stack_call]
      exact ih.trans h.nextIdent_le ((Later.refl g).call c bind).nextIdent_le (.refl _ _ _)
  | @bind f g name v _ _ ih => cases name <;> exact ih
  | @enter f g h ih =>
      exact ih.trans h.nextIdent_le (Nat.le_succ _) (Stack.grown_cons g.stack)
  | @finish f g h ih =>
      rw [stack_finish, nextIdent_finish]
      exact ih.trans h.nextIdent_le (Nat.le_refl _) (Stack.grown_drop _ _ _ 1)
  | @leave f g c failed h ih =>
      obtain ⟨k, hk⟩ := stack_leave c failed g
      rw [hk, nextIdent_leave]
      exact ih.trans h.nextIdent_le (Nat.le_refl _) (Stack.grown_drop _ _ _ k)
  | aside h _ haside ih _ =>
      -- the stack of the flow is put back, and numbers have only grown meanwhile
      exact ih.trans h.nextIdent_le haside.nextIdent_le (.refl _ _ _)

/-- Numbers of active contexts stay below the next one. -/
theorem Later.stack_lt {f g : Flow} (h : Later f g) (hf : ∀ d ∈ f.stack, d < f.world.nextIdent) :
    ∀ d ∈ g.stack, d < g.world.nextIdent :=
  h.grown.lt h.nextIdent_le hf

/-! ## Moments of a session -/

/-- The flow is at a moment of a session: it comes from the beginning by moves of the flow, or of a
flow that runs aside. -/
inductive Moment : Flow → Prop
  | initial : Moment Flow.initial
  | later {f g : Flow} : Moment f → Later f g → Moment g
  | aside {f : Flow} {s : Stack} : Moment f → s = f.stack ∨ s = [] → Moment { f with stack := s }

/-- At every moment of a session all active contexts have been begun. -/
theorem Moment.stack_lt {f : Flow} (h : Moment f) : ∀ d ∈ f.stack, d < f.world.nextIdent := by
  induction h with
  | initial => exact fun _ hd => absurd hd List.not_mem_nil
  | later _ hfg ih => exact hfg.stack_lt ih
  | aside _ hs ih =>
      rcases hs with rfl | rfl
      · exact ih
      · exact fun _ hd => absurd hd List.not_mem_nil

end Flow

end DotDoc
