import DotDoc.Session.Run

set_option autoImplicit false

/-!
# Moves of a flow

A flow can be run move by move. A move begins a block, leaves a block, or carries out a step of
another kind as a whole; what the flow is about to do is kept between the moves (`Progress`). Run
this way, a list of steps comes to the entries, the stack, the names and the world that running it
at once comes to (`Progress.moves_eq_runAll`). How many moves that takes at most can be told from the
steps (`turnsAll`); further moves change nothing.
-/

namespace DotDoc

/-! ## Moves -/

/-- A block that a flow is in: the context to leave at its end, whether the block is interrupted
there, the entries of the steps before it, and the steps after it. -/
structure Pending where
  context : ContextId
  interrupt : Bool
  entries : List Entry
  todo : List Step

/-- How far a flow has come: the entries and the remaining steps of the innermost block that it is
in, and the blocks around it, the innermost first. -/
structure Progress where
  entries : List Entry
  todo : List Step
  blocks : List Pending

namespace Progress

/-- The flow before its first step. -/
def start (steps : List Step) : Progress := ⟨[], steps, []⟩

/-- The flow after a step with the given entry. -/
def after (p : Progress) (entry : Entry) (rest : List Step) : Progress :=
  ⟨p.entries ++ [entry], rest, p.blocks⟩

/-- No step is left, and no block is open. -/
def Finished (p : Progress) : Prop := p.todo = [] ∧ p.blocks = []

/-- The end of a block: its context is left, and the steps after the block come next. -/
def leaveBlock (p : Progress) (b : Pending) (outer : List Pending) : FlowM Progress := do
  let left ← Flow.leave b.context b.interrupt
  let left := left <|> if b.interrupt then some .interrupted else none
  return ⟨b.entries ++ [.within p.entries left (← Flow.depth)], b.todo, outer⟩

/-- The beginning of a block, unless there is no context to run it in. -/
def enterBlock (p : Progress) (context bind : Option String) (interrupt : Bool)
    (body rest : List Step) : FlowM Progress := do
  match ← Flow.blockContext context with
  | .error f => return p.after (.failed f) rest
  | .ok v =>
    Flow.bind bind v
    match v with
    | .context c => return ⟨[], body, ⟨c, interrupt, p.entries, rest⟩ :: p.blocks⟩
    | _ => return p.after (.within [] (some .misuse) (← Flow.depth)) rest

/-- One move. -/
def move (p : Progress) : FlowM Progress :=
  match p.todo with
  | [] =>
    match p.blocks with
    | [] => return p
    | b :: outer => p.leaveBlock b outer
  | .within context bind interrupt body :: rest => p.enterBlock context bind interrupt body rest
  | step :: rest => do return p.after (← step.run) rest

/-- Several moves. -/
def moves : Nat → Progress → FlowM Progress
  | 0, p => return p
  | k + 1, p => do (← moves k p).move

end Progress

mutual

/-- How many moves a step takes at most. -/
def Step.turns : Step → Nat
  | .within _ _ _ body => turnsAll body + 2
  | _ => 1

/-- How many moves some steps take at most. -/
def turnsAll : List Step → Nat
  | [] => 0
  | s :: rest => s.turns + turnsAll rest

end

namespace Progress

theorem moves_add (j k : Nat) (p : Progress) (s : Flow) :
    (moves (j + k) p).run s = (moves k ((moves j p).run s).1).run ((moves j p).run s).2 := by
  induction k with
  | zero => rfl
  | succ k ih =>
      show (moves (j + k) p >>= move).run s = _
      rw [StateT.run_bind, ih]
      rfl

theorem moves_of_finished {p : Progress} (h : p.Finished) (k : Nat) (s : Flow) :
    (moves k p).run s = (p, s) := by
  obtain ⟨entries, todo, blocks⟩ := p
  obtain ⟨rfl, rfl⟩ := h
  induction k with
  | zero => rfl
  | succ k ih =>
      show (moves k _ >>= move).run s = _
      rw [StateT.run_bind, ih]
      rfl

/-! ## Moves and runs -/

/-- Some moves, at most a given number, lead from one state to another. -/
def Leads (n : Nat) (p : Progress) (s : Flow) (q : Progress) (t : Flow) : Prop :=
  ∃ k ≤ n, (moves k p).run s = (q, t)

namespace Leads

variable {m n : Nat} {p q r : Progress} {s t u : Flow}

theorem trans (h : Leads m p s q t) (h' : Leads n q t r u) : Leads (m + n) p s r u := by
  obtain ⟨j, hj, h⟩ := h
  obtain ⟨k, hk, h'⟩ := h'
  refine ⟨j + k, Nat.add_le_add hj hk, ?_⟩
  rw [moves_add, h]
  exact h'

theorem mono (h : Leads m p s q t) (hle : m ≤ n) : Leads n p s q t := by
  obtain ⟨k, hk, h⟩ := h
  exact ⟨k, Nat.le_trans hk hle, h⟩

theorem move (h : p.move.run s = (q, t)) : Leads 1 p s q t := ⟨1, Nat.le_refl 1, h⟩

end Leads

mutual

/-- A step that is next is carried out in some moves. -/
theorem leads_step (entries : List Entry) (rest : List Step) (blocks : List Pending) (s : Flow) :
    ∀ step : Step, Leads step.turns ⟨entries, step :: rest, blocks⟩ s
      ⟨entries ++ [(step.run.run s).1], rest, blocks⟩ (step.run.run s).2
  | .within context bind interrupt body => by
    rw [Step.turns, Step.run, StateT.run_bind]
    have hmove :
        (Progress.move ⟨entries, .within context bind interrupt body :: rest, blocks⟩).run s =
          (enterBlock ⟨entries, .within context bind interrupt body :: rest, blocks⟩ context bind
            interrupt body rest).run s := rfl
    rw [enterBlock, StateT.run_bind] at hmove
    generalize (Flow.blockContext context).run s = begun at hmove ⊢
    obtain ⟨r, s₁⟩ := begun
    cases r with
    | error f => exact (Leads.move hmove).mono (Nat.le_add_left 1 _)
    | ok v =>
        cases v with
        | context c =>
            -- the block is entered, its steps are carried out, and it is left
            have hbody := leads_all [] [] (⟨c, interrupt, entries, rest⟩ :: blocks)
              ((Flow.bind bind (.context c)).run s₁).2 body
            rw [List.append_nil] at hbody
            refine Leads.mono (((Leads.move hmove).trans hbody).trans (.move rfl)) ?_
            omega
        | _ => exact (Leads.move hmove).mono (Nat.le_add_left 1 _)
  | .call c bind => .move rfl
  | .enter on bind => .move rfl
  | .finish on bind => .move rfl
  | .leave on failed bind => .move rfl
  | .copied body => .move rfl
  | .apart body => .move rfl
  | .logged body => .move rfl

/-- Steps that are next are carried out in some moves. -/
theorem leads_all (entries : List Entry) (rest : List Step) (blocks : List Pending) (s : Flow) :
    ∀ steps : List Step, Leads (turnsAll steps) ⟨entries, steps ++ rest, blocks⟩ s
      ⟨entries ++ ((runAll steps).run s).1, rest, blocks⟩ ((runAll steps).run s).2
  | [] => by
    rw [turnsAll, runAll]
    have hnone : entries ++ ((pure [] : FlowM (List Entry)).run s).1 = entries :=
      List.append_nil entries
    rw [hnone]
    exact ⟨0, Nat.le_refl 0, rfl⟩
  | step :: steps => by
    have hfirst := leads_step entries (steps ++ rest) blocks s step
    have hothers := leads_all (entries ++ [(step.run.run s).1]) rest blocks (step.run.run s).2 steps
    rw [List.append_assoc] at hothers
    rw [turnsAll, runAll]
    exact hfirst.trans hothers

end

/-- **Enough moves come to what running the steps comes to.** -/
theorem moves_eq_runAll (steps : List Step) (s : Flow) {n : Nat} (h : turnsAll steps ≤ n) :
    (moves n (start steps)).run s =
      (⟨((runAll steps).run s).1, [], []⟩, ((runAll steps).run s).2) := by
  obtain ⟨k, hk, hrun⟩ := leads_all [] [] [] s steps
  rw [List.append_nil, List.nil_append] at hrun
  have hsplit : n = k + (n - k) := by omega
  rw [hsplit, moves_add, start, hrun]
  exact moves_of_finished ⟨rfl, rfl⟩ (n - k) _

end Progress

end DotDoc
