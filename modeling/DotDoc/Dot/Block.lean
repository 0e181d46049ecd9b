import DotDoc.Dot.Ident
import DotDoc.Port

set_option autoImplicit false

/-!
# Documents as trees of statements

A document is a block with a keyword in front. A block states default
attributes, its own attributes, node statements, nested blocks that stand alone,
and edge lines. Either end of an edge is a place on a node or a nested block.

Blocks remember the identity of the graph they were written for and edges that
of their link; neither shows in the text.
-/

namespace DotDoc.Dot

/-- Attributes in the order in which they are written. -/
abbrev AttrList := List (String × Label)

/-- A node with attributes, which may be none. -/
structure NodeStatement where
  name : Label
  attrs : AttrList
deriving DecidableEq

mutual

/-- The content between two braces, and the name in front of them. -/
structure Block where
  origin : Nat
  name : Label
  graphAttrs : AttrList
  nodeAttrs : AttrList
  edgeAttrs : AttrList
  attrs : AttrList
  nodes : List NodeStatement
  alone : List Block
  edges : List Edge

/-- An edge line. -/
structure Edge where
  origin : Nat
  source : Endpoint
  target : Endpoint
  attrs : AttrList

/-- One end of an edge line. -/
inductive Endpoint where
  | point (name : Label) (record : Option Label) (compass : Option Compass)
  | block (b : Block)

end

/-- A whole document. -/
structure Document where
  strict : Bool
  directed : Bool
  block : Block

/-! ## Text -/

/-- Attributes between brackets. -/
def attrList (d : Dialect) (attrs : AttrList) : List Char :=
  let items := attrs.map fun e => ident d ⟨e.1, false⟩ ++ '=' :: ident d e.2
  '[' :: [','].intercalate items ++ [']']

/-- Attributes behind what they belong to; nothing is written if there are
none. -/
def attrSuffix (d : Dialect) (attrs : AttrList) : List Char :=
  if attrs.isEmpty then [] else ' ' :: attrList d attrs

/-- A line with default attributes, if there are any. -/
def defaultsLine (d : Dialect) (keyword : String) (attrs : AttrList) : List Char :=
  if attrs.isEmpty then [] else keyword.toList ++ ' ' :: attrList d attrs ++ ['\n']

/-- A line for each of the block's own attributes. -/
def attrLines (d : Dialect) (attrs : AttrList) : List Char :=
  attrs.flatMap fun e => ident d ⟨e.1, false⟩ ++ '=' :: ident d e.2 ++ ['\n']

def NodeStatement.line (d : Dialect) (n : NodeStatement) : List Char :=
  ident d n.name ++ attrSuffix d n.attrs ++ ['\n']

/-- A place on a node. -/
def point (d : Dialect) (name : Label) (record : Option Label) (compass : Option Compass) :
    List Char :=
  ident d name ++ (record.elim [] fun r => ':' :: ident d r)
    ++ compass.elim [] fun c => ':' :: c.code.toList

/-- A name in front of a brace, unless there is none. -/
def heading (d : Dialect) (name : Label) : List Char :=
  if name.anonymous then [] else ident d name ++ [' ']

/-- What stands in front of the brace of a block inside another one. -/
def subheading (d : Dialect) (name : Label) : List Char :=
  if name.anonymous then [] else "subgraph ".toList ++ heading d name

mutual

/-- What follows the name of a block, from brace to brace. -/
def Block.body (d : Dialect) (op : String) : Block → List Char
  | ⟨_, _, graphAttrs, nodeAttrs, edgeAttrs, attrs, nodes, alone, edges⟩ =>
    "\x7b\n".toList
      ++ defaultsLine d "graph" graphAttrs
      ++ defaultsLine d "node" nodeAttrs
      ++ defaultsLine d "edge" edgeAttrs
      ++ attrLines d attrs
      ++ nodes.flatMap (NodeStatement.line d)
      ++ aloneLines d op alone
      ++ edgeLines d op edges
      ++ ['\x7d']

/-- Nested blocks that stand alone, each on a line. -/
def aloneLines (d : Dialect) (op : String) : List Block → List Char
  | [] => []
  | b :: rest => subheading d b.name ++ b.body d op ++ '\n' :: aloneLines d op rest

/-- Edge lines. -/
def edgeLines (d : Dialect) (op : String) : List Edge → List Char
  | [] => []
  | e :: rest => e.line d op ++ edgeLines d op rest

/-- The two ends with the operator between them, and the attributes. -/
def Edge.line (d : Dialect) (op : String) : Edge → List Char
  | ⟨_, source, target, attrs⟩ =>
    source.chars d op ++ ' ' :: op.toList ++ ' ' :: target.chars d op ++ attrSuffix d attrs ++ ['\n']

/-- One end of an edge. -/
def Endpoint.chars (d : Dialect) (op : String) : Endpoint → List Char
  | .point name record compass => Dot.point d name record compass
  | .block b => subheading d b.name ++ b.body d op

end

/-- What stands between the braces of a block, in order. -/
theorem Block.body_parts (d : Dialect) (op : String) (b : Block) :
    b.body d op =
      "\x7b\n".toList
        ++ defaultsLine d "graph" b.graphAttrs
        ++ defaultsLine d "node" b.nodeAttrs
        ++ defaultsLine d "edge" b.edgeAttrs
        ++ attrLines d b.attrs
        ++ b.nodes.flatMap (NodeStatement.line d)
        ++ aloneLines d op b.alone
        ++ edgeLines d op b.edges
        ++ ['\x7d'] := by
  cases b
  rfl

/-- The two ends of an edge, with the operator between them. -/
theorem Edge.line_parts (d : Dialect) (op : String) (e : Edge) :
    e.line d op = e.source.chars d op ++ ' ' :: op.toList ++ ' ' :: e.target.chars d op
      ++ attrSuffix d e.attrs ++ ['\n'] := by
  cases e
  rfl

/-- A block inside another one. -/
def Block.nested (d : Dialect) (op : String) (b : Block) : List Char :=
  subheading d b.name ++ b.body d op

/-! ### Text by parts -/

theorem aloneLines_eq_flatten (d : Dialect) (op : String) (bs : List Block) :
    aloneLines d op bs = (bs.map fun b => b.nested d op ++ ['\n']).flatten := by
  induction bs with
  | nil => rfl
  | cons b rest ih =>
      rw [aloneLines, ih, List.map_cons, List.flatten_cons]
      simp [Block.nested]

theorem edgeLines_eq_flatten (d : Dialect) (op : String) (es : List Edge) :
    edgeLines d op es = (es.map (Edge.line d op)).flatten := by
  induction es with
  | nil => rfl
  | cons e rest ih => rw [edgeLines, ih, List.map_cons, List.flatten_cons]

/-- What is written between the braces of a block, part by part. Each attribute of the block, each
node statement, each block that stands alone and each edge has a line of its own. -/
def Block.parts (d : Dialect) (op : String) (b : Block) : List (List Char) :=
  [defaultsLine d "graph" b.graphAttrs, defaultsLine d "node" b.nodeAttrs,
      defaultsLine d "edge" b.edgeAttrs]
    ++ b.attrs.map (fun e => ident d ⟨e.1, false⟩ ++ '=' :: ident d e.2 ++ ['\n'])
    ++ b.nodes.map (NodeStatement.line d)
    ++ b.alone.map (fun c => c.nested d op ++ ['\n'])
    ++ b.edges.map (Edge.line d op)

/-- **The text of a block is its parts in order, between braces.** -/
theorem Block.body_eq_parts (d : Dialect) (op : String) (b : Block) :
    b.body d op = "\x7b\n".toList ++ (b.parts d op).flatten ++ ['\x7d'] := by
  rw [body_parts, aloneLines_eq_flatten, edgeLines_eq_flatten, attrLines, parts]
  simp only [List.flatten_append, List.flatten_cons, List.flatten_nil, List.append_nil,
    List.append_assoc, List.flatMap_def]

namespace Document

/-- The document's keywords. -/
def keywords (doc : Document) : List Char :=
  (if doc.strict then "strict ".toList else [])
    ++ (if doc.directed then "digraph ".toList else "graph ".toList)

/-- The text of a document. Its keyword decides which operator all its edges
are written with. -/
def text (d : Dialect) (doc : Document) : String :=
  String.ofList (doc.keywords ++ heading d doc.block.name
    ++ doc.block.body d (d.edgeOp doc.directed))

end Document

end DotDoc.Dot
