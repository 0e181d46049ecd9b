import DotDoc.Attributes

set_option autoImplicit false

/-!
# Creation contexts

A creation context holds default attributes for the graphs, nodes and links that
are made while it is the innermost active one. The active contexts of a flow of
steps form a stack. An inner context hides the outer ones altogether.

Leaving a context takes it and everything above it off the stack.
-/

namespace DotDoc

/-- Contexts are named by the order in which they came to be. -/
abbrev ContextId := Nat

/-- The elements that defaults are kept for. -/
inductive ElementKind where
  | graph | node | link
deriving DecidableEq

/-- The default attributes that a context holds. -/
structure Defaults where
  graphs : AttrTable
  nodes : AttrTable
  links : AttrTable

namespace Defaults

/-- No defaults. -/
def none : Defaults := ⟨∅, ∅, ∅⟩

/-- The defaults of one kind of element. -/
def get (d : Defaults) : ElementKind → AttrTable
  | .graph => d.graphs
  | .node => d.nodes
  | .link => d.links

/-- The defaults with those of one kind replaced. -/
def set (d : Defaults) (t : AttrTable) : ElementKind → Defaults
  | .graph => { d with graphs := t }
  | .node => { d with nodes := t }
  | .link => { d with links := t }

theorem get_set (d : Defaults) (t : AttrTable) (k k' : ElementKind) :
    (d.set t k).get k' = if k' = k then t else d.get k' := by
  cases k <;> cases k' <;> rfl

end Defaults

/-- The active contexts of a flow, the innermost first. -/
abbrev Stack := List ContextId

/-- What becomes of a stack when a context is left. -/
inductive Leaving where
  | inactive
  | left (rest : Stack) (innermost : Bool)

namespace Stack

/-- The number of active contexts. -/
def depth (s : Stack) : Nat := s.length

/-- Leave a context: what is below it stays active. -/
def leave (s : Stack) (c : ContextId) : Leaving :=
  match s.dropWhile (· != c) with
  | [] => .inactive
  | _ :: below => .left below (s.head? == some c)

end Stack

/-- What a flow of steps reports while it runs. -/
inductive Event where
  | begun (depth : Nat)
  | ended (depth : Nat)
  | serialized (graph : String) (length : Nat)

/-- The wording of a report. -/
def Event.message : Event → String
  | begun depth => s!"creation context begun at depth {depth}"
  | ended depth => s!"creation context ended at depth {depth}"
  | serialized graph length => s!"serialized {graph} into {length} characters"

end DotDoc
