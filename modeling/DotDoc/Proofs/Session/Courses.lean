import DotDoc.Proofs.Session.Runs

set_option autoImplicit false

/-!
# The course of a flow

A flow of a session begins with the session, or another flow starts it on a copy of its stack or
without active contexts (`Flow.Started`). On its course it goes through moves of its own, and in
between all other flows may go through theirs (`Flow.Course`). Only its own moves touch its stack.

So at every moment the contexts on the stack stand in the order in which they were made, the latest
one on top. Each was begun by the flow itself or stood on the stack that the flow was started with,
and a context that is gone does not come back. A block that runs aside does not change the stack
(`Flow.Started.stackKept`).
-/

namespace DotDoc

namespace Stack

/-- The contexts of the stack have been made before the number, and the upper ones later than the
lower ones. -/
def Ordered (n : Nat) (s : Stack) : Prop := s.Pairwise (· > ·) ∧ ∀ d ∈ s, d < n

theorem ordered_nil (n : Nat) : Ordered n [] := ⟨.nil, fun _ h => absurd h List.not_mem_nil⟩

theorem Grown.ordered {n m : Nat} {s t : Stack} (h : Grown n m s t) (hnm : n ≤ m)
    (hs : s.Ordered n) : t.Ordered m := by
  refine ⟨?_, h.lt hnm hs.2⟩
  obtain ⟨new, k, rfl, hpair, hnew⟩ := h
  refine List.pairwise_append.2 ⟨hpair, hs.1.drop, ?_⟩
  -- what is new is later than all that was there
  intro c hc d hd
  exact Nat.lt_of_lt_of_le (hs.2 d (List.mem_of_mem_drop hd)) (hnew c hc).1

end Stack

namespace Flow

/-- From one moment of a flow to a later one: it goes through moves of its own, and other flows go
through theirs, each on another stack, in the same world and with the same names. -/
inductive Course (f : Flow) : Flow → Prop
  | start : Course f f
  | own {g h : Flow} : Course f g → Later g h → Course f h
  | others {g h : Flow} {s : Stack} :
    Course f g → Later { g with stack := s } h → Course f { h with stack := g.stack }

/-- A flow where it starts: with the session, or by a move of another flow, on a copy of the stack
of that one or without active contexts. -/
inductive Started : Flow → Prop
  | initial : Started Flow.initial
  | aside {f g : Flow} {s : Stack} :
    Started f → Course f g → s = g.stack ∨ s = [] → Started { g with stack := s }

variable {f g h : Flow} {c : ContextId}

theorem Course.trans (hfg : Course f g) (hgh : Course g h) : Course f h := by
  induction hgh with
  | start => exact hfg
  | own _ hlater ih => exact ih.own hlater
  | others _ hlater ih => exact ih.others hlater

theorem Later.course (hfg : Later f g) : Course f g := Course.start.own hfg

theorem Course.nextIdent_le (hfg : Course f g) : f.world.nextIdent ≤ g.world.nextIdent := by
  induction hfg with
  | start => exact Nat.le_refl _
  | own _ hlater ih => exact Nat.le_trans ih hlater.nextIdent_le
  | others _ hlater ih => exact Nat.le_trans ih hlater.nextIdent_le

/-- What other flows do may only use up numbers. -/
theorem Course.grown (hfg : Course f g) :
    Stack.Grown f.world.nextIdent g.world.nextIdent f.stack g.stack := by
  induction hfg with
  | start => exact .refl _ _ _
  | own hfg hlater ih => exact ih.trans hfg.nextIdent_le hlater.nextIdent_le hlater.grown
  | others hfg hlater ih =>
      exact ih.trans hfg.nextIdent_le hlater.nextIdent_le (.refl _ _ _)

/-! ## Contexts that a flow begins -/

/-- On its course from the one moment to the other the flow begins the context. -/
def Begins (f : Flow) (c : ContextId) (g : Flow) : Prop :=
  ∃ e, Course f e ∧ e.world.nextIdent = c ∧ Course (Flow.enter.run e).2 g

theorem Begins.trans (hfg : f.Begins c g) (hgh : Course g h) : f.Begins c h := by
  obtain ⟨e, hfe, hc, heg⟩ := hfg
  exact ⟨e, hfe, hc, heg.trans hgh⟩

theorem Course.begins (hfg : Course f g) (hgh : g.Begins c h) : f.Begins c h := by
  obtain ⟨e, hge, hc, heh⟩ := hgh
  exact ⟨e, hfg.trans hge, hc, heh⟩

/-- What stays on the stack has the origin that it had. -/
theorem begins_or_mem_of_subset (hgh : Course g h) (hstack : h.stack ⊆ g.stack)
    (ih : ∀ c ∈ g.stack, f.Begins c g ∨ c ∈ f.stack) :
    ∀ c ∈ h.stack, f.Begins c h ∨ c ∈ f.stack :=
  fun c hc => (ih c (hstack hc)).imp_left fun h => h.trans hgh

/-- What is active has been begun by the flow itself, or it was active before. -/
theorem Later.begins_or_mem (hfg : Later f g) : ∀ c ∈ g.stack, f.Begins c g ∨ c ∈ f.stack := by
  induction hfg with
  | refl f => exact fun c hc => .inr hc
  | @call f g d bind _ ih =>
      refine begins_or_mem_of_subset ((Later.refl g).call d bind).course ?_ ih
      rw [stack_call]
      exact List.Subset.refl _
  | @bind f g name v _ hv ih =>
      refine begins_or_mem_of_subset ((Later.refl g).bind name hv).course ?_ ih
      cases name <;> exact List.Subset.refl _
  | @enter f g hfg ih =>
      intro c hc
      have henter : Course g (Flow.enter.run g).2 := (Later.refl g).enter.course
      -- the new context is on top, and the others were active before
      rcases List.mem_cons.1 hc with rfl | hc
      · exact .inl ⟨g, hfg.course, rfl, .start⟩
      · exact (ih c hc).imp_left fun h => h.trans henter
  | @finish f g _ ih =>
      refine begins_or_mem_of_subset (Later.refl g).finish.course ?_ ih
      rw [stack_finish]
      exact List.drop_subset 1 g.stack
  | @leave f g d failed _ ih =>
      refine begins_or_mem_of_subset ((Later.refl g).leave d failed).course ?_ ih
      obtain ⟨k, hk⟩ := stack_leave d failed g
      rw [hk]
      exact List.drop_subset k g.stack
  | @aside f g k s _ hs haside ih _ =>
      exact begins_or_mem_of_subset ((Later.refl g).aside hs haside).course
        (List.Subset.refl _) ih

theorem Course.begins_or_mem (hfg : Course f g) :
    ∀ c ∈ g.stack, f.Begins c g ∨ c ∈ f.stack := by
  induction hfg with
  | start => exact fun c hc => .inr hc
  | own hfg hlater ih =>
      intro c hc
      rcases hlater.begins_or_mem c hc with hbegins | hc
      · exact .inl (hfg.begins hbegins)
      · exact (ih c hc).imp_left fun h => h.trans hlater.course
  | others _ hlater ih =>
      exact begins_or_mem_of_subset (Course.start.others hlater) (List.Subset.refl _) ih

/-! ## Stacks -/

theorem Started.ordered (hf : Started f) : f.stack.Ordered f.world.nextIdent := by
  induction hf with
  | initial => exact Stack.ordered_nil _
  | aside _ hfg hs ih =>
      rcases hs with rfl | rfl
      · exact hfg.grown.ordered hfg.nextIdent_le ih
      · exact Stack.ordered_nil _

/-- What is said of the stack of a flow at a moment `g` on its course from its start `f`. -/
structure StackKept (f g : Flow) : Prop where
  /-- The contexts stand in the order of their making, the latest one on top, and numbers that are
  left are for later ones. -/
  ordered : g.stack.Ordered g.world.nextIdent
  /-- Each was begun by the flow itself or was active where it was started. -/
  origin : ∀ c ∈ g.stack, f.Begins c g ∨ c ∈ f.stack
  /-- A context that is not active any more does not become active later. -/
  gone : ∀ h k, Course g h → Course h k → ∀ c ∈ g.stack, c ∉ h.stack → c ∉ k.stack
  /-- Any steps lead to another moment of the flow. -/
  runs : ∀ steps, Course f ((runAll steps).run g).2
  /-- Steps within a context, a new one or a named one, start at another moment of the flow. -/
  enters : ∀ context bind v, ((Flow.blockContext context).run g).1 = .ok v →
    Course f ((Flow.bind bind v).run ((Flow.blockContext context).run g).2).2
  /-- Steps that run aside start as a flow of their own, and the stack is the same after them. -/
  aside : ∀ steps, Started { g with stack := g.stack } ∧ Started { g with stack := [] } ∧
    ((Step.copied steps).run.run g).2.stack = g.stack ∧
    ((Step.apart steps).run.run g).2.stack = g.stack

/-- **At every moment of every flow the stack is in order.** -/
theorem Started.stackKept (hf : Started f) (hfg : Course f g) : f.StackKept g where
  ordered := hfg.grown.ordered hfg.nextIdent_le hf.ordered
  origin := hfg.begins_or_mem
  gone h k hgh hhk c hc hgone := by
    -- the context was there, so its number is not handed out again
    have hlt : c < g.world.nextIdent :=
      (hfg.grown.ordered hfg.nextIdent_le hf.ordered).2 c hc
    exact hhk.grown.notMem (Nat.lt_of_lt_of_le hlt hgh.nextIdent_le) hgone
  runs steps := hfg.own (later_runAll steps g)
  enters context bind v hv := by
    obtain ⟨hlater, hstorable⟩ := later_blockContext context g
    exact hfg.own (hlater.bind bind (hstorable v hv))
  aside steps := by
    refine ⟨hf.aside hfg (.inl rfl), hf.aside hfg (.inr rfl), ?_, ?_⟩
    · rw [Step.run]
      rfl
    · rw [Step.run]
      rfl

/-- Two contexts are active where a block starts on a copy of the stack. -/
def copyStart : Flow :=
  ((runAll [.enter none (some "outer"), .enter none (some "inner")]).run initial).2

/-- The flow of the block has begun a context. -/
def copyEntered : Flow := ((runAll [.enter none none]).run copyStart).2

/-- Meanwhile another flow has begun one. -/
def copyDisturbed : Flow :=
  { ((runAll [.enter none (some "alien")]).run { copyEntered with stack := [] }).2 with
    stack := copyEntered.stack }

/-- The flow of the block has tried to leave the context of the other flow, has left one that it was
started with, and has begun another one. -/
def copyLeft : Flow :=
  ((runAll [.leave "alien" false none, .leave "inner" false none, .enter none none]).run
    copyDisturbed).2

theorem stackKept_copy : copyStart.stack = [2, 1] ∧ copyDisturbed.stack = [3, 2, 1] ∧
    copyLeft.stack = [5, 1] ∧ Started copyStart ∧ Course copyStart copyLeft ∧
    copyStart.StackKept copyLeft := by
  have hbegun : Course initial copyStart := (later_runAll _ initial).course
  have hstarted : Started copyStart :=
    Started.initial.aside (g := copyStart) (s := copyStart.stack) hbegun (.inl rfl)
  have hentered : Course copyStart copyEntered := (later_runAll _ copyStart).course
  have hdisturbed : Course copyStart copyDisturbed := hentered.others (later_runAll _ _)
  have hleft : Course copyStart copyLeft := hdisturbed.own (later_runAll _ copyDisturbed)
  exact ⟨by decide +kernel, by decide +kernel, by decide +kernel, hstarted, hleft,
    hstarted.stackKept hleft⟩

end Flow

end DotDoc
