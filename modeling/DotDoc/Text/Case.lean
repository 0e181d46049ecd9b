set_option autoImplicit false

/-!
# Small letters

The small form of a text, where that is a text of ASCII letters. Besides the
ASCII capitals one letter has an ASCII letter as its small form: the sign of the
kelvin.
-/

namespace DotDoc.Text

/-- The small form of a letter. -/
def lowerChar (c : Char) : Char := if c = '\u212a' then 'k' else c.toLower

/-- A text in small letters. -/
def lower (s : String) : String := String.ofList (s.toList.map lowerChar)

end DotDoc.Text
