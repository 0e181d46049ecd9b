import DotDoc.Context.Basic
import DotDoc.Dot.Ident
import DotDoc.Graph.Basic

set_option autoImplicit false

/-!
# Steps of a session

A session is a list of steps. A step calls an operation on the arguments it
describes and may store the result under a name. Other steps begin, end and
leave contexts, or run steps of their own: within a context, on a copy of the
stack, on an empty stack, or with a record of what is reported.
-/

namespace DotDoc

/-- The description of an argument. -/
inductive Expr where
  | none
  | bool (b : Bool)
  | int (i : Int)
  | text (s : String)
  | list (items : List Expr)
  /-- The value stored under a name. -/
  | name (n : String)
  /-- A markup label with the text of a value. -/
  | markup (e : Expr)
  /-- A floating-point number by its text. -/
  | number (text : String)
  | map (entries : List (Expr × Expr))

/-- Arguments given by name, in order. -/
abbrev Named := List (String × Expr)

/-- The views that graphs and contexts give of their tables. -/
inductive View where
  | ofGraph (slot : GraphTable)
  | ofContext (slot : ElementKind)
  | unknown

/-- What can be asked of a value by name: something it holds, or an operation that
is carried out without arguments. -/
inductive Field where
  -- what values hold
  | value | html | anonymous | isEmpty | name | recordName | direction | node | port | target
  | sourcePort | attributes | links | nodes | subgraphs | graphs | isDirected | isStrict
  | graphAttrs | nodeAttrs | linkAttrs | graphDefaults | nodeDefaults | linkDefaults
  | view (slot : GraphTable)
  -- operations
  | endpoint | directed | undirected | strict | graph | link | attrs | current
  | attr | withAttr | merge | lookup | named | record | compass | labelOf | markup
  | unknown

/-- An operation with the descriptions of its arguments. An argument that is not
given takes the value that the operation has for it. -/
inductive Call where
  -- labels, tables and ports
  | label (value : Option Expr) (markup : Bool)
  | labelOf (value : Expr)
  | markup (text : Expr)
  | attributes (items : Option Expr) (named : Named)
  | withAttr (on : String) (key value : Expr)
  | merge (on : String) (other : Expr)
  | lookup (on : String) (key : Expr)
  | contains (on : String) (key : Expr)
  | compassOf (direction : Expr)
  | port (record compass : Option Expr)
  | record (on : Option String) (name : Expr)
  | compass (on : Option String) (direction : Expr)
  | nodePort (on : String) (record compass : Option Expr)
  -- elements
  | node (name : Option Expr) (named : Named)
  | graph (name : Option Expr) (named : Named)
  | newNode (name attrs : Option Expr)
  | newGraph (name : Option Expr) (directed strict : Bool) (attrs : Option Expr)
  | linkTo (target : Expr) (attrs : Option Expr)
  | between (source target : Expr) (attrs : Option Expr)
  | newLink (target : Expr) (sourcePort attrs : Option Expr)
  | linkOf (target : Expr)
  | point (anchor : Expr) (place : Option Expr)
  | foreignTarget (name : String)
  | abstractTarget
  | abstractAttr (key value : Expr)
  | chain (stem : String) (count : Int)
  | nest (stem : String) (count : Int)
  -- updates
  | attr (on : String) (key value : Expr)
  | attrs (on : String) (items : Option Expr) (named : Named)
  | link (on : String) (targets : List Expr)
  | addNodes (on : String) (nodes : List Expr)
  | addGraphs (on : String) (graphs : List Expr)
  | endpoint (on : String)
  | directed (on : String) (value : Bool)
  | strict (on : String) (value : Bool)
  | named (on : String) (name : Expr)
  | view (on : String) (view : View)
  -- contexts
  | newContext
  | current
  | defaults
  -- inspection
  | get (on : String)
  | field (on : String) (field : Field) (index : Option Int)
  | debug (value : Expr)
  | text (value : Expr)
  | same (a b : Expr)
  | equal (a b : Expr)
  | distinct (items : List Expr)
  -- output
  | serialize (graph : Expr)
  | serializeTwice (on : String)
  | serializeWith (on : String) (dialect : Dot.Dialect)
  | source (on : String) (filename format engine : String)

/-- One step of a session. -/
inductive Step where
  | call (c : Call) (bind : Option String)
  /-- Begin a context. It does not matter which context is asked to, if any is. -/
  | enter (on : Option String) (bind : Option String)
  /-- End the innermost context, whichever context is asked to. -/
  | finish (on : Option String) (bind : Option String)
  /-- Leave a context, with or without a failure that is under way. -/
  | leave (on : String) (failed : Bool) (bind : Option String)
  /-- Run steps within a context, a new one unless one is named. -/
  | within (context : Option String) (bind : Option String) (interrupt : Bool) (body : List Step)
  /-- Run steps on a copy of the stack. -/
  | copied (body : List Step)
  /-- Run steps in a flow of their own, where no context is active. -/
  | apart (body : List Step)
  /-- Run steps and list what they report. -/
  | logged (body : List Step)

end DotDoc
