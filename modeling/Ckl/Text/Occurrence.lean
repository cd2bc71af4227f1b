/-!
# Texts in texts

Whether a text begins or ends with another one, or has it inside.
-/

namespace Ckl.Text

/-- Whether `part` stands somewhere in a text. -/
def occursIn (part : List Char) : List Char → Bool
  | [] => part.isEmpty
  | c :: rest => part.isPrefixOf (c :: rest) || occursIn part rest

end Ckl.Text
