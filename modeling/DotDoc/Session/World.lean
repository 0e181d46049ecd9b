import DotDoc.Dot.Outline
import DotDoc.Session.Debug
import DotDoc.Session.Failure

set_option autoImplicit false

/-!
# The world of a session

All flows of a session share one world: the identity numbers that are left, the
defaults that the contexts hold, and the journal of what was reported. An action
changes the world and gives a result or fails; what it changed before it failed
stays changed.
-/

namespace DotDoc

/-- What the flows of a session share. The journal has the latest event first. -/
structure World where
  nextIdent : Nat
  contexts : Contexts
  journal : List Event

/-- The world before the first step. The number zero is that of the port that is
meant if none is given. -/
def World.initial : World := ⟨1, ∅, []⟩

/-- An action on the world. -/
abbrev Act := ExceptT Failure (StateM World)

namespace Act

/-- Make values with identity numbers of this world. -/
def make {α : Type} (s : Supply α) : Act α :=
  modifyGet fun w =>
    let (a, n) := s.run w.nextIdent
    (a, { w with nextIdent := n })

/-- A new identity number. -/
def ident : Act Nat := make Supply.next

/-- Report an event. -/
def report (e : Event) : Act Unit := modify fun w => { w with journal := e :: w.journal }

/-- A value as it is shown now. -/
def debug (v : Value) : Act String := do return v.debug (← get).contexts

/-- Fail on account of a value. -/
def refuse {α : Type} (cause : String → Failure) (v : Value) : Act α := do
  throw (cause (← debug v))

/-- The defaults that the innermost of the active contexts holds; none without
an active context. -/
def defaults (active : Stack) : Act Defaults := do
  match active with
  | [] => return .none
  | c :: _ => return (← get).contexts.defaults c

/-- Replace one of the default tables of a context. -/
def setDefaults (c : ContextId) (slot : ElementKind) (t : AttrTable) : Act Unit :=
  modify fun w => { w with contexts := w.contexts.set c ((w.contexts.defaults c).set t slot) }

/-- A new context that holds no defaults. -/
def newContext : Act ContextId := do
  let c ← ident
  modify fun w => { w with contexts := w.contexts.set c .none }
  return c

/-- The failure of a graph that cannot be written. A foreign anchor does not have
links to follow, and those of a context are no links to follow. -/
def unwritable : Unwritable Value → Failure
  | .target t => .foreignEnd t.debug
  | .anchor (.context _) => .misuse
  | .anchor _ => .noSuchOperation
  | .place _ => .foreignPlace
  | .record _ => .foreignPlace

/-- Write a graph in a dialect. -/
def serialize (g : Graph Value) (d : Dot.Dialect) : Act String := do
  match g.serialize d with
  | .ok text =>
    report (.serialized g.debug text.length)
    return text
  | .error e => throw (unwritable e)

end Act

end DotDoc
