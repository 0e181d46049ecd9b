set_option autoImplicit false

/-!
# Parts of texts

A text is a part of another one if its characters stand there side by side. Main
statement: `Text.isPart_iff`, that a part is what is left without a beginning and
an end.
-/

namespace DotDoc.Text

/-- The characters stand side by side among the others. -/
def isPart (part : List Char) : List Char → Bool
  | [] => part.isEmpty
  | c :: rest => part.isPrefixOf (c :: rest) || isPart part rest

theorem isPart_iff (part text : List Char) : isPart part text = true ↔ part <:+: text := by
  induction text with
  | nil => simp [isPart]
  | cons c rest ih =>
    rw [isPart, Bool.or_eq_true, ih, List.isPrefixOf_iff_prefix, List.infix_cons_iff]

end DotDoc.Text
