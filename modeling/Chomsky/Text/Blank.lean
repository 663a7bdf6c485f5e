/-!
# Blanks around a text

The characters that count as white space, and texts without those at their
ends.
-/

set_option autoImplicit false

namespace Chomsky

/-- First and last code point of each run of white space characters. -/
def blankRanges : List (Nat × Nat) :=
  [(0x9, 0xd), (0x20, 0x20), (0x85, 0x85), (0xa0, 0xa0), (0x1680, 0x1680), (0x2000, 0x200a),
   (0x2028, 0x2029), (0x202f, 0x202f), (0x205f, 0x205f), (0x3000, 0x3000)]

/-- Whether a character is white space. -/
def isBlank (c : Char) : Bool :=
  blankRanges.any fun range => decide (range.1 ≤ c.toNat ∧ c.toNat ≤ range.2)

/-- The text without the white space at both ends. -/
def trimBlanks (text : String) : String :=
  String.ofList (((text.toList.dropWhile isBlank).reverse.dropWhile isBlank).reverse)

end Chomsky
