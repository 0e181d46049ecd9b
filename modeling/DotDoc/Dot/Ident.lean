import DotDoc.Label

set_option autoImplicit false

/-!
# Written identifiers

A plain label is written between quotes, and every quote inside it gets a
backslash in front. Backslashes of the text itself stay as they are. A markup
label is written as it is, between angle brackets.

The quote and the two edge operators are a matter of dialect. A dialect may even
take a longer text for its quote, or the empty text, which occurs everywhere.
-/

namespace DotDoc.Dot

/-- The signs of which a document is made up besides its keywords. -/
structure Dialect where
  directedOp : String := "->"
  undirectedOp : String := "--"
  quote : String := "\""

namespace Dialect

/-- The dialect that is meant if none is given. -/
def standard : Dialect := {}

/-- The operator between the two ends of an edge. -/
def edgeOp (d : Dialect) (directed : Bool) : String :=
  if directed then d.directedOp else d.undirectedOp

end Dialect

/-- Put a backslash in front of every occurrence of `quote`, read from the left
without overlap. The first `skip` characters are the rest of an occurrence that
has begun already. An empty quote occurs in front of every character and at the
end. -/
def escape (quote : List Char) : Nat → List Char → List Char
  | _, [] => if quote.isEmpty then ['\\'] else []
  | skip + 1, c :: rest => c :: escape quote skip rest
  | 0, c :: rest =>
    if quote.isPrefixOf (c :: rest) then '\\' :: c :: escape quote (quote.length - 1) rest
    else c :: escape quote 0 rest

/-- A text between quotes. -/
def quoted (quote : List Char) (text : List Char) : List Char :=
  quote ++ escape quote 0 text ++ quote

/-- How a label is written. -/
def ident (d : Dialect) (l : Label) : List Char :=
  if l.markup then '<' :: l.text.toList ++ ['>'] else quoted d.quote.toList l.text.toList

/-- With a quote of one character, each character is escaped on its own. -/
theorem escape_singleton (q : Char) (text : List Char) :
    escape [q] 0 text = text.flatMap fun c => if c = q then ['\\', c] else [c] := by
  induction text with
  | nil => simp [escape]
  | cons c rest ih =>
    by_cases h : c = q
    · simp [escape, h, ih]
    · have h' : ¬ q = c := fun e => h e.symm
      simp [escape, h, h', ih]

end DotDoc.Dot
