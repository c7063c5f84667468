import Chomsky.Text.CharacterSet

/-!
# Blanks

The property White_Space of Unicode, and what is left of a text when the blanks around it go.
-/

namespace Chomsky

/-- The characters with the property White_Space. -/
def blankSet : CharacterSet :=
  [⟨0x9, 0xD, 1⟩, ⟨0x20, 0x20, 1⟩, ⟨0x85, 0x85, 1⟩, ⟨0xA0, 0xA0, 1⟩, ⟨0x1680, 0x1680, 1⟩,
   ⟨0x2000, 0x200A, 1⟩, ⟨0x2028, 0x2029, 1⟩, ⟨0x202F, 0x202F, 1⟩, ⟨0x205F, 0x205F, 1⟩,
   ⟨0x3000, 0x3000, 1⟩]

def isBlank (c : Char) : Bool := blankSet.holds c

/-- The text without the blanks at its beginning and its end. -/
def trimBlanks (text : List Char) : List Char :=
  ((text.dropWhile isBlank).reverse.dropWhile isBlank).reverse

end Chomsky
