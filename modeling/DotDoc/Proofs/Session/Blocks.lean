import DotDoc.Proofs.Session.Runs

set_option autoImplicit false

/-!
# Blocks within a context

A block within a new context begins the context, runs its steps and leaves the context. The steps
may do anything to the stack. Either the context is still active at their end; then it stands right
on the stack that the block was begun with, and that stack is what remains. Or it is not; then the
stack remains as the steps left it, and leaving fails. A context that is no longer active stays so
(`Flow.block_closes`).

So what the steps begin ends with the block, unless they end the context of the block themselves and
begin other ones after that: those outlive the block (`Flow.outlives_block_iff`,
`Flow.not_all_begun_end`).
-/

namespace DotDoc

namespace Flow

/-- The flow where the steps of a block within a new context begin. -/
def blockStart (f : Flow) (bind : Option String) : Flow :=
  ((Flow.bind bind (.context f.world.nextIdent)).run (Flow.enter.run f).2).2

/-- The flow at the end of the steps of the block. -/
def blockEnd (f : Flow) (bind : Option String) (body : List Step) : Flow :=
  ((runAll body).run (f.blockStart bind)).2

theorem stack_blockStart (f : Flow) (bind : Option String) :
    (f.blockStart bind).stack = f.world.nextIdent :: f.stack := by
  cases bind <;> rfl

theorem nextIdent_blockStart (f : Flow) (bind : Option String) :
    (f.blockStart bind).world.nextIdent = f.world.nextIdent + 1 := by
  cases bind <;> rfl

/-- How the block ends, with the failure of leaving it, if any, and the flow after it. The number
of the context is the next one of the flow before it. -/
structure Closes (f : Flow) (bind : Option String) (interrupt : Bool) (body : List Step)
    (left : Option Failure) (after : Flow) : Prop where
  /-- If the context is active at the end, the stack is restored, and leaving fails only where the
  block is not interrupted and inner contexts are open. -/
  active : f.world.nextIdent ∈ (f.blockEnd bind body).stack →
    ∃ inner, (f.blockEnd bind body).stack = inner ++ f.world.nextIdent :: f.stack ∧
      after.stack = f.stack ∧
      left = if interrupt then some .interrupted else if inner = [] then none else
        some (.openInnerContexts
          ((f.blockEnd bind body).world.contexts.defaults f.world.nextIdent).debug)
  /-- Else the stack remains as it is, and leaving fails, interrupted or not. -/
  inactive : f.world.nextIdent ∉ (f.blockEnd bind body).stack →
    after.stack = (f.blockEnd bind body).stack ∧
      left = some (.inactiveContext
        ((f.blockEnd bind body).world.contexts.defaults f.world.nextIdent).debug)
  /-- Wherever the flow comes to from the beginning of the block, a context that is not active does
  not become active later. -/
  gone : ∀ g h, Later (f.blockStart bind) g → f.world.nextIdent ∉ g.stack → Later g h →
    f.world.nextIdent ∉ h.stack
  /-- After the block the context is not active any more, whatever steps follow. -/
  after : ∀ steps, f.world.nextIdent ∉ ((runAll steps).run after).2.stack

theorem run_within_new (f : Flow) (bind : Option String) (interrupt : Bool) (body : List Step) :
    (Step.within none bind interrupt body).run.run f =
      let ended := (runAll body).run (f.blockStart bind)
      let closed := (Flow.leave f.world.nextIdent interrupt).run ended.2
      (.within ended.1 (closed.1 <|> if interrupt then some .interrupted else none)
        closed.2.stack.depth, closed.2) := by
  rw [Step.run]
  rfl

/-- Leaving an active context leaves what is below it on the stack. -/
theorem leave_of_stack (g : Flow) (failed : Bool) {c : ContextId} {inner rest : Stack}
    (hstack : g.stack = inner ++ c :: rest) (hinner : c ∉ inner) :
    ((Flow.leave c failed).run g).1 = (if inner.isEmpty || failed then none else
        some (.openInnerContexts (g.world.contexts.defaults c).debug)) ∧
      ((Flow.leave c failed).run g).2.stack = rest := by
  rw [run_leave, hstack, Stack.leave_append hinner]
  exact ⟨rfl, rfl⟩

theorem leave_of_notMem (g : Flow) (failed : Bool) {c : ContextId} (hc : c ∉ g.stack) :
    (Flow.leave c failed).run g =
      (some (.inactiveContext (g.world.contexts.defaults c).debug), g) := by
  rw [run_leave, Stack.leave_of_notMem hc]

/-- The context of a block does not come back once it is gone. -/
theorem stays_gone {f g h : Flow} {bind : Option String} (hg : Later (f.blockStart bind) g)
    (hnot : f.world.nextIdent ∉ g.stack) (hgh : Later g h) : f.world.nextIdent ∉ h.stack := by
  have hlt : f.world.nextIdent < g.world.nextIdent := by
    have hle := hg.nextIdent_le
    rw [nextIdent_blockStart] at hle
    exact hle
  exact hgh.grown.notMem hlt hnot

/-- As long as the context of a block is active, it stands on the stack that the block was begun
with. -/
theorem stack_of_active {f g : Flow} (hf : ∀ d ∈ f.stack, d < f.world.nextIdent)
    {bind : Option String} (hg : Later (f.blockStart bind) g) (hc : f.world.nextIdent ∈ g.stack) :
    ∃ inner, g.stack = inner ++ f.world.nextIdent :: f.stack ∧ f.world.nextIdent ∉ inner := by
  have hfresh : f.world.nextIdent ∉ f.stack := fun h => Nat.lt_irrefl _ (hf _ h)
  have hgrown := hg.grown
  rw [stack_blockStart, nextIdent_blockStart] at hgrown
  exact hgrown.of_mem (Nat.lt_succ_self _) hfresh hc

/-- **A block within a new context restores the stack, or the context is gone for good.** That the
active contexts have been begun holds at every moment of a session (`Moment.stack_lt`). -/
theorem block_closes (f : Flow) (hf : ∀ d ∈ f.stack, d < f.world.nextIdent)
    (bind : Option String) (interrupt : Bool) (body : List Step) :
    ∃ entries left after, (Step.within none bind interrupt body).run.run f =
        (.within entries left after.stack.depth, after) ∧
      f.Closes bind interrupt body left after := by
  have hlater : Later (f.blockStart bind) (f.blockEnd bind body) := later_runAll body _
  have hafter : Later (f.blockStart bind)
      ((Flow.leave f.world.nextIdent interrupt).run (f.blockEnd bind body)).2 :=
    hlater.leave f.world.nextIdent interrupt
  refine ⟨_, _, _, run_within_new f bind interrupt body, ?_⟩
  constructor
  · intro hc
    obtain ⟨inner, hstack, hinner⟩ := stack_of_active hf hlater hc
    obtain ⟨hleft, hrest⟩ := leave_of_stack (f.blockEnd bind body) interrupt hstack hinner
    refine ⟨inner, hstack, hrest, ?_⟩
    show (((Flow.leave f.world.nextIdent interrupt).run (f.blockEnd bind body)).1 <|>
      if interrupt then some .interrupted else none) = _
    rw [hleft]
    -- an interruption goes before open inner contexts
    cases interrupt <;> cases inner <;> rfl
  · intro hc
    show ((Flow.leave f.world.nextIdent interrupt).run (f.blockEnd bind body)).2.stack = _ ∧
      (((Flow.leave f.world.nextIdent interrupt).run (f.blockEnd bind body)).1 <|>
        if interrupt then some .interrupted else none) = _
    rw [leave_of_notMem (f.blockEnd bind body) interrupt hc]
    exact ⟨rfl, rfl⟩
  · intro g h hg hnot hgh
    exact stays_gone hg hnot hgh
  · intro steps
    apply stays_gone hafter _ (later_runAll steps _)
    -- the context is left, or it was gone before
    by_cases hc : f.world.nextIdent ∈ (f.blockEnd bind body).stack
    · obtain ⟨inner, hstack, hinner⟩ := stack_of_active hf hlater hc
      rw [(leave_of_stack (f.blockEnd bind body) interrupt hstack hinner).2]
      exact fun h => Nat.lt_irrefl _ (hf _ h)
    · rw [leave_of_notMem (f.blockEnd bind body) interrupt hc]
      exact hc

/-- Two contexts are active. -/
def nestedFlow : Flow := ((runAll [.enter none none, .enter none none]).run initial).2

/-- A block whose steps leave a context of their own and then begin another one. -/
theorem block_closes_nested : nestedFlow.stack = [2, 1] ∧
    (∀ d ∈ nestedFlow.stack, d < nestedFlow.world.nextIdent) ∧
    ∃ entries left after,
      (Step.within none none false
        [.enter none (some "c"), .leave "c" false none, .enter none none]).run.run nestedFlow =
        (.within entries left after.stack.depth, after) ∧
      nestedFlow.Closes none false
        [.enter none (some "c"), .leave "c" false none, .enter none none] left after := by
  have hstack : nestedFlow.stack = [2, 1] := by decide +kernel
  have hlt : ∀ d ∈ nestedFlow.stack, d < nestedFlow.world.nextIdent := by decide +kernel
  exact ⟨hstack, hlt, block_closes nestedFlow hlt none false _⟩

/-! ## What outlives a block -/

/-- What remains of the stack after the steps of a block: what the block was begun with, if its
context is still active, and else all that the steps left. -/
theorem stack_leave_block (f : Flow) (hf : ∀ d ∈ f.stack, d < f.world.nextIdent)
    (bind : Option String) (interrupt : Bool) (body : List Step) :
    ((Flow.leave f.world.nextIdent interrupt).run (f.blockEnd bind body)).2.stack =
      if f.world.nextIdent ∈ (f.blockEnd bind body).stack then f.stack
      else (f.blockEnd bind body).stack := by
  split
  · rename_i hc
    obtain ⟨inner, hstack, hinner⟩ := stack_of_active hf (later_runAll body _) hc
    exact (leave_of_stack _ interrupt hstack hinner).2
  · rename_i hc
    rw [leave_of_notMem _ interrupt hc]

/-- **The contexts that outlive the block in which they were begun** are those that are active at
the end of its steps where the context of the block itself is gone by then. The contexts that came
to be in the block are those with a greater number than its own context, which never outlives
it. -/
theorem outlives_block_iff (f : Flow) (hf : ∀ d ∈ f.stack, d < f.world.nextIdent)
    (bind : Option String) (interrupt : Bool) (body : List Step) :
    ∃ entries left after, (Step.within none bind interrupt body).run.run f =
        (.within entries left after.stack.depth, after) ∧
      f.world.nextIdent ∉ after.stack ∧
      ∀ d, f.world.nextIdent < d → (d ∈ after.stack ↔
        f.world.nextIdent ∉ (f.blockEnd bind body).stack ∧ d ∈ (f.blockEnd bind body).stack) := by
  refine ⟨_, _, _, run_within_new f bind interrupt body, ?_⟩
  have hstack := stack_leave_block f hf bind interrupt body
  constructor
  · show f.world.nextIdent ∉
      ((Flow.leave f.world.nextIdent interrupt).run (f.blockEnd bind body)).2.stack
    rw [hstack]
    split
    · exact fun h => Nat.lt_irrefl _ (hf _ h)
    · assumption
  · intro d hd
    show d ∈ ((Flow.leave f.world.nextIdent interrupt).run (f.blockEnd bind body)).2.stack ↔ _
    rw [hstack]
    split
    · -- below the context of the block there are only older ones
      rename_i hc
      exact ⟨fun h => absurd (hf d h) (Nat.lt_asymm hd), fun h => absurd hc h.1⟩
    · rename_i hc
      exact ⟨fun h => ⟨hc, h⟩, fun h => h.2⟩

theorem outlives_block_nested : nestedFlow.stack = [2, 1] ∧
    (∀ d ∈ nestedFlow.stack, d < nestedFlow.world.nextIdent) ∧
    ∃ entries left after, (Step.within none none true
        [.enter none none, .finish none none, .finish none none, .enter none none]).run.run
          nestedFlow = (.within entries left after.stack.depth, after) ∧
      nestedFlow.world.nextIdent ∉ after.stack ∧
      ∀ d, nestedFlow.world.nextIdent < d → (d ∈ after.stack ↔
        nestedFlow.world.nextIdent ∉ (nestedFlow.blockEnd none
          [.enter none none, .finish none none, .finish none none, .enter none none]).stack ∧
        d ∈ (nestedFlow.blockEnd none
          [.enter none none, .finish none none, .finish none none, .enter none none]).stack) := by
  have hstack : nestedFlow.stack = [2, 1] := by decide +kernel
  have hlt : ∀ d ∈ nestedFlow.stack, d < nestedFlow.world.nextIdent := by decide +kernel
  exact ⟨hstack, hlt, outlives_block_iff nestedFlow hlt none true _⟩

/-- A context that is begun in a block may outlive it: the steps end the context of the block and
begin another one. -/
theorem not_all_begun_end : ¬ ∀ (f : Flow), Moment f →
    ∀ (bind : Option String) (interrupt : Bool) (body : List Step),
      ∀ d ∈ ((Step.within none bind interrupt body).run.run f).2.stack, d < f.world.nextIdent := by
  intro hall
  have hstack : ((Step.within none none false
      [.finish none none, .enter none none]).run.run initial).2.stack = [2] := by
    decide +kernel
  have hlt := hall initial .initial none false [.finish none none, .enter none none] 2
    (hstack ▸ List.mem_singleton_self 2)
  exact absurd hlt (by decide)

end Flow

end DotDoc
