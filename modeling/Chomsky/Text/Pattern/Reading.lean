import Chomsky.Text.Blank
import Chomsky.Text.Pattern.Fault

/-!
# Reading the text of a pattern

The state in which a pattern is read, and the steps that all parts of a pattern
share. Flags in the text change how what follows is read: they are kept as modes
in the state.

A part of a pattern can be well written and still have no meaning, such as an
unknown property. Such a fault is kept, and counts only if the rest of the text
is well written too; the first of them is the one that counts.

## What this module delivers

- `Modes` and `Flag`, with `Modes.set`.
- `Reading`, the state, and `PatternReader`, steps on it.
- Steps that look at characters, pass over them, refuse the text or object to a
  part of it.
-/

set_option autoImplicit false

namespace Chomsky

/-! ## Modes -/

/-- How a pattern is read. -/
structure Modes where
  /-- Small and capital letters are the same. -/
  caseless : Bool
  /-- Lines have starts and ends of their own. -/
  byLine : Bool
  /-- A dot is for the ends of lines too. -/
  dotAll : Bool
  /-- Carriage returns end lines too. -/
  returns : Bool
  /-- Blanks and comments are passed over. -/
  spaced : Bool
  /-- Patterns are about characters, not bytes. -/
  wide : Bool

/-- The modes in which reading begins. -/
def Modes.standard : Modes := ⟨false, false, false, false, false, true⟩

/-- What can be turned on and off within a pattern. -/
inductive Flag where
  | caseless
  | byLine
  | dotAll
  /-- Whether repetitions are short or long when both are possible, which makes
  no difference to whether a text fits. -/
  | swapped
  | wide
  | returns
  | spaced
deriving DecidableEq

/-- The flag of a letter. -/
def Flag.ofLetter? (letter : Char) : Option Flag :=
  match letter with
  | 'i' => some .caseless
  | 'm' => some .byLine
  | 's' => some .dotAll
  | 'U' => some .swapped
  | 'u' => some .wide
  | 'R' => some .returns
  | 'x' => some .spaced
  | _ => none

/-- The modes with a flag turned on or off. -/
def Modes.set (modes : Modes) (flag : Flag) (value : Bool) : Modes :=
  match flag with
  | .caseless => { modes with caseless := value }
  | .byLine => { modes with byLine := value }
  | .dotAll => { modes with dotAll := value }
  | .swapped => modes
  | .wide => { modes with wide := value }
  | .returns => { modes with returns := value }
  | .spaced => { modes with spaced := value }

/-! ## State -/

/-- The state of reading. -/
structure Reading where
  /-- The number of characters read. -/
  place : Nat
  /-- The characters to be read. -/
  rest : List Char
  /-- The modes. -/
  modes : Modes
  /-- The names of groups, each with its stretch. -/
  names : List (String × Stretch)
  /-- The first part that is well written and has no meaning. -/
  objection : Option Fault

/-- The state in which the reading of a text begins. -/
def Reading.ofText (text : String) : Reading := ⟨0, text.toList, .standard, [], none⟩

/-- Steps that read a part of a pattern. -/
abbrev PatternReader := StateT Reading (Except Fault)

namespace PatternReader

/-- Stops with an error about the characters between two places. -/
def refuse {α : Type} (cause : PatternError) (start stop : Nat) : PatternReader α :=
  throw ⟨cause, ⟨start, stop⟩, none⟩

/-- Stops with an error about something that is given twice. -/
def refuseRepeated {α : Type} (cause : PatternError) (stretch earlier : Stretch) :
    PatternReader α :=
  throw ⟨cause, stretch, some earlier⟩

/-- Keeps an error about a part that is well written. -/
def object (cause : PatternError) (stretch : Stretch) : PatternReader Unit :=
  modify fun s => { s with objection := s.objection.or (some ⟨cause, stretch, none⟩) }

/-- The place of the next character. -/
def here : PatternReader Nat := do return (← get).place

/-- The characters to be read. -/
def ahead : PatternReader (List Char) := do return (← get).rest

/-- The next character. -/
def peek : PatternReader (Option Char) := do return (← get).rest.head?

/-- The modes. -/
def modes : PatternReader Modes := do return (← get).modes

/-- Goes on in other modes. -/
def setModes (modes : Modes) : PatternReader Unit := modify fun s => { s with modes }

/-- Passes over a number of characters, or over all if there are fewer. -/
def skip (count : Nat) : PatternReader Unit := modify fun s =>
  { s with place := s.place + min count s.rest.length, rest := s.rest.drop count }

/-- The number of leading characters that are blank or in a comment. A comment
goes from a number sign to the end of the line. -/
def blankLength (inComment : Bool) : List Char → Nat
  | [] => 0
  | c :: rest =>
      if inComment then 1 + blankLength (c != '\n') rest
      else if isBlank c then 1 + blankLength false rest
      else if c = '#' then 1 + blankLength true rest
      else 0

/-- Passes over blanks and comments, in the mode that allows for them. -/
def skipBlanks : PatternReader Unit := do
  if (← modes).spaced then skip (blankLength false (← ahead))

/-- Passes over a character and the blanks and comments after it. -/
def advance : PatternReader Unit := do
  skip 1
  skipBlanks

/-- The first of some characters that is not blank, a first number sign left out
too; if there is none, the first of all. -/
def firstSolid (characters : List Char) : Option Char :=
  match characters.dropWhile isBlank with
  | '#' :: rest => ((rest.dropWhile isBlank).head?).or characters.head?
  | c :: _ => some c
  | [] => characters.head?

/-- The character after the next one, blanks left out in the mode that allows
for them. -/
def peekSecond : PatternReader (Option Char) := do
  let after := (← ahead).tail
  return if (← modes).spaced then firstSolid after else after.head?

end PatternReader

end Chomsky
