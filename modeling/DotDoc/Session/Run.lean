import DotDoc.Session.Call

set_option autoImplicit false

/-!
# Running a session

A flow of steps has a stack of active contexts. All flows of a session share the
world and the names. Steps on a copy of the stack, or in a flow of their own,
leave the stack of the surrounding flow as it was; what they do to the world and
the names stays.

A block of steps within a context leaves the context at its end, whether or not
it is interrupted there.
-/

namespace DotDoc

/-- A flow of steps: its stack, and what it shares with the other flows. -/
structure Flow where
  stack : Stack
  world : World
  names : Names

/-- The flow before its first step. -/
def Flow.initial : Flow := ⟨[], .initial, ∅⟩

/-- An action of a flow. -/
abbrev FlowM := StateM Flow

namespace Flow

/-- Act on the world, where the active contexts and the names can be read. -/
def act {α : Type} (f : Stack → Names → Act α) : FlowM (Except Failure α) :=
  modifyGet fun s =>
    let (r, w) := (f s.stack s.names).run s.world
    (r, { s with world := w })

/-- Store a value under a name, if there is one. -/
def bind (name : Option String) (v : Value) : FlowM Unit :=
  modify fun s => name.elim s fun n => { s with names := s.names.set n v }

/-- Report an event. -/
def report (e : Event) : FlowM Unit :=
  modify fun s => { s with world := { s.world with journal := e :: s.world.journal } }

/-! ## Contexts -/

/-- Begin a context: it becomes the innermost one. -/
def enter : FlowM ContextId := do
  let s ← get
  let c := s.world.nextIdent
  let stack : Stack := c :: s.stack
  set { s with
    stack
    world := { s.world with nextIdent := c + 1, contexts := s.world.contexts.set c .none } }
  report (.begun stack.depth)
  return c

/-- End the innermost context. -/
def finish : FlowM (Option Failure) := do
  let s ← get
  match s.stack with
  | [] => return some .unmatchedEnd
  | _ :: rest =>
    set { s with stack := rest }
    report (.ended s.stack.depth)
    return none

/-- Leave a context. If it is active, it goes with all that is above it; that
there is something above it counts as a failure unless another one is under
way. -/
def leave (c : ContextId) (failed : Bool) : FlowM (Option Failure) := do
  let s ← get
  let shown := (s.world.contexts.defaults c).debug
  match s.stack.leave c with
  | .inactive => return some (.inactiveContext shown)
  | .left rest innermost =>
    set { s with stack := rest }
    report (.ended (rest.depth + 1))
    return if innermost || failed then none else some (.openInnerContexts shown)

/-- The number of active contexts. -/
def depth : FlowM Nat := do return (← get).stack.depth

/-! ## Blocks of steps -/

/-- Run a block on another stack and return to this one. -/
def onStack {α : Type} (f : Stack → Stack) (body : FlowM α) : FlowM α := do
  let stack := (← get).stack
  modify fun s => { s with stack := f stack }
  let r ← body
  modify fun s => { s with stack }
  return r

/-- Run a block and give what it reports, in order. -/
def logging {α : Type} (body : FlowM α) : FlowM (α × List Event) := do
  let before := (← get).world.journal.length
  let r ← body
  let journal := (← get).world.journal
  return (r, (journal.take (journal.length - before)).reverse)

/-- What a block is to run in: the value of the given name, or a new context. -/
def blockContext (context : Option String) : FlowM (Except Failure Value) := do
  match context with
  | none => return .ok (.context (← enter))
  | some n =>
    match (← get).names.get? n with
    | none => return .error (.unbound n)
    | some v => return .ok v

/-- Why a value that is asked about contexts cannot answer, if it cannot. -/
def refusal (on : Option String) : FlowM (Option Failure) := do
  match on with
  | none => return none
  | some n =>
    match (← get).names.get? n with
    | none => return some (.unbound n)
    | some v => return if v.isContext then none else some .noSuchOperation

/-- Run a block within a context and leave it. The failure of leaving goes
before the interruption of the block. -/
def within {α : Type} (c : ContextId) (interrupt : Bool) (body : FlowM α) :
    FlowM (α × Option Failure) := do
  let r ← body
  let left ← leave c interrupt
  return (r, left <|> if interrupt then some .interrupted else none)

end Flow

/-! ## Steps -/

/-- Carry out a call and store its result. -/
def Flow.call (c : Call) (bind : Option String) : FlowM Entry := do
  match ← Flow.act fun active names => Act.perform active names c with
  | .error f => return .failed f
  | .ok answer =>
    Flow.bind bind answer.stored
    return .result (answer.report (← get).world.contexts)

/-- The entry of a step that gives nothing or fails. -/
def entryOf (bind : Option String) (failure : Option Failure) : FlowM Entry :=
  match failure with
  | some f => return .failed f
  | none => do
    Flow.bind bind .none
    return .result .nothing

mutual

/-- Run a step. -/
def Step.run : Step → FlowM Entry
  | .call c bind => Flow.call c bind
  | .enter on bind => do
    match ← Flow.refusal on with
    | some f => return .failed f
    | none =>
      let c ← Flow.enter
      Flow.bind bind (.context c)
      return .result ((Value.context c).report (← get).world.contexts)
  | .finish on bind => do
    match ← Flow.refusal on with
    | some f => return .failed f
    | none => entryOf bind (← Flow.finish)
  | .leave on failed bind => do
    match (← get).names.get? on with
    | none => return .failed (.unbound on)
    | some (.context c) => entryOf bind (← Flow.leave c failed)
    | some _ => return .failed .noSuchOperation
  | .within context bind interrupt body => do
    match ← Flow.blockContext context with
    | .error f => return .failed f
    | .ok v =>
      Flow.bind bind v
      match v with
      | .context c =>
        let (steps, left) ← Flow.within c interrupt (runAll body)
        return .within steps left (← Flow.depth)
      | _ => return .within [] (some .misuse) (← Flow.depth)
  | .copied body => do
    let steps ← Flow.onStack id (runAll body)
    return .aside steps (← Flow.depth)
  | .apart body => do
    let steps ← Flow.onStack (fun _ => []) (runAll body)
    return .aside steps (← Flow.depth)
  | .logged body => do
    let (steps, events) ← Flow.logging (runAll body)
    return .logged steps events

/-- Run steps one after the other. -/
def runAll : List Step → FlowM (List Entry)
  | [] => return []
  | s :: rest => do
    let entry ← s.run
    let entries ← runAll rest
    return entry :: entries

end

/-- The entries of a whole session. -/
def runSession (steps : List Step) : List Entry := ((runAll steps).run Flow.initial).1

end DotDoc
