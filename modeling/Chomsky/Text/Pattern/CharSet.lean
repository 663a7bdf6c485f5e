/-!
# Sets of characters

A pattern asks for characters by sets. Patterns are matched against texts in
ASCII, so the sets that have a name are exact on ASCII and leave out every other
character; the sets that are written with characters or ranges are exact
everywhere.

## What this module delivers

- `CharSet` with its operations.
- The sets that have a name: `CharSet.digit`, `CharSet.blank`, `CharSet.word`
  and those of `CharSet.ofName?`.
- `CharSet.caseless`, the closure under the change between small and capital
  letters.
-/

set_option autoImplicit false

namespace Chomsky

/-- A set of characters, by membership. -/
abbrev CharSet := Char → Bool

namespace CharSet

/-- The set without characters. -/
def nothing : CharSet := fun _ => false

/-- The set of one character. -/
def single (member : Char) : CharSet := fun c => c == member

/-- The characters from one to another. -/
def range (first last : Char) : CharSet := fun c => decide (first ≤ c) && decide (c ≤ last)

/-- The characters of a text. -/
def ofText (members : String) : CharSet := fun c => members.toList.contains c

/-- The characters that are in at least one of two sets. -/
def union (s t : CharSet) : CharSet := fun c => s c || t c

/-- The characters that are in a set, or those that are not. -/
def polar (negated : Bool) (s : CharSet) : CharSet := fun c => s c != negated

/-! ## Sets that have a name -/

/-- The letters. -/
def letter : CharSet := Char.isAlpha

/-- The decimal digits. -/
def digit : CharSet := Char.isDigit

/-- The characters that make room. -/
def blank : CharSet := (range '\t' '\r').union (single ' ')

/-- The characters of words. -/
def word : CharSet := (letter.union digit).union (single '_')

/-- The set that a name in brackets and colons stands for. -/
def ofName? (name : String) : Option CharSet :=
  match name with
  | "alnum" => some (letter.union digit)
  | "alpha" => some letter
  | "ascii" => some (range (Char.ofNat 0x0) (Char.ofNat 0x7f))
  | "blank" => some (ofText "\t ")
  | "cntrl" => some ((range (Char.ofNat 0x0) (Char.ofNat 0x1f)).union (single (Char.ofNat 0x7f)))
  | "digit" => some digit
  | "graph" => some (range '!' '~')
  | "lower" => some (range 'a' 'z')
  | "print" => some (range ' ' '~')
  | "punct" => some fun c => range '!' '~' c && !letter c && !digit c
  | "space" => some blank
  | "upper" => some (range 'A' 'Z')
  | "word" => some word
  | "xdigit" => some ((digit.union (range 'A' 'F')).union (range 'a' 'f'))
  | _ => none

/-! ## Small and capital letters -/

/-- The kelvin sign, whose small letter is that of `K`. -/
def kelvin : Char := Char.ofNat 0x212a

/-- The long s, whose capital letter is that of `s`. -/
def longS : Char := Char.ofNat 0x17f

/-- The letters of ASCII that share their small or their capital letter with a
member, and the members. The kelvin sign and the long s are the only characters
outside ASCII that bring in letters of ASCII; `wide` takes them into account. -/
def caseless (wide : Bool) (s : CharSet) : CharSet := fun c =>
  s c || s c.toLower || s c.toUpper
    || (wide && (c.toLower == 'k' && s kelvin || c.toLower == 's' && s longS))

end CharSet

end Chomsky
