set_option autoImplicit false

/-!
# Failures of a step

A failure says what is wrong; where its wording names a value, it keeps the value
as it is shown at that moment. A step that fails has no result, and the steps
after it still run.
-/

namespace DotDoc

/-- Why a step fails. -/
inductive Failure where
  /-- A name that no value was stored under. -/
  | unbound (name : String)
  /-- A link to something that cannot be the end of an edge. -/
  | notATarget (shown : String)
  /-- Something given for a port. -/
  | notAPort (shown : String)
  /-- Something added to a graph as a node. -/
  | notANode (shown : String)
  /-- Something added to a graph as a subgraph. -/
  | notASubgraph (shown : String)
  /-- A link with a source port that should leave from a graph. -/
  | portOnGraph (link graph : String)
  /-- The end of a context where none is active. -/
  | unmatchedEnd
  /-- A context left that is not active. -/
  | inactiveContext (shown : String)
  /-- A context left while inner ones are active. -/
  | openInnerContexts (shown : String)
  /-- A side of a node that there is not. -/
  | notADirection (shown : String)
  /-- A text that is no number. -/
  | notANumber (shown : String)
  /-- Something other than a graph to be written. -/
  | notADocument (shown : String)
  /-- An edge to be written whose end comes from outside the model. -/
  | foreignEnd (shown : String)
  /-- An edge to be written at something that is no port, or at a record name that
  is neither text nor label. -/
  | foreignPlace
  /-- Something without entries given for attributes. -/
  | notAttributes
  /-- Something without entries laid over a table. -/
  | notMergeable
  /-- A key that cannot be one. -/
  | unusableKey
  /-- A table read at a key that it does not have. -/
  | missingKey
  /-- An operation on a value that does not have it. -/
  | noSuchOperation
  /-- A position beyond the ends of a list. -/
  | noSuchPosition
  /-- A value used as what it is not. -/
  | misuse
  /-- An argument given both by place and by name. -/
  | repeatedArgument
  /-- An operation that only more special values carry out. -/
  | abstractOperation
  /-- A block of steps that ends in an interruption. -/
  | interrupted
deriving DecidableEq

namespace Failure

/-- The wording of a failure, for those that have one. -/
def message? : Failure → Option String
  | unbound name => some name
  | notATarget shown => some s!"{shown} is not a valid link target"
  | notAPort shown => some s!"{shown} is not a valid port"
  | notANode shown => some s!"{shown} is not a valid Node"
  | notASubgraph shown => some s!"{shown} is not a valid Graph"
  | portOnGraph link graph => some s!"{link} leaves from a port, which {graph} cannot have"
  | unmatchedEnd => some "Creation context ended without a matching begin"
  | inactiveContext shown => some s!"{shown} is not an active creation context"
  | openInnerContexts shown =>
    some s!"{shown} was left with inner creation contexts still open"
  | notADirection shown => some s!"\"{shown}\" is not a valid compass direction"
  | notANumber shown => some s!"could not convert string to float: {shown}"
  | notADocument shown => some s!"{shown} is not a valid Graph"
  | foreignEnd shown => some s!"{shown} is not a valid link endpoint"
  | _ => none

end Failure

end DotDoc
