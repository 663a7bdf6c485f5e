import Chomsky.Name.Distinct
import Chomsky.Text.Pattern.CharSet

/-!
# Patterns

A pattern describes stretches of a text: single characters by sets, boundaries
between characters, and sequences, choices and repetitions of such pieces. A
text fits a pattern when some stretch of it does.

A place in a text is the number of characters before it.

## What this module delivers

- `Boundary`, what a pattern can ask of a place, and `Boundary.holds`.
- `Pattern` and `Pattern.ends`, the places where stretches from given places
  end.
- `Pattern.occursIn`, the test of a text.
-/

set_option autoImplicit false

namespace Chomsky

/-- What a pattern can ask of a place. Lines end at line feeds, or at line feeds
and carriage returns, of which a carriage return with its line feed is one. -/
inductive Boundary where
  /-- The start of the text. -/
  | textStart
  /-- The end of the text. -/
  | textEnd
  /-- The start of a line. -/
  | lineStart (returns : Bool)
  /-- The end of a line. -/
  | lineEnd (returns : Bool)
  /-- The start or the end of a word. -/
  | word
  /-- Neither the start nor the end of a word. -/
  | notWord
  /-- The start of a word. -/
  | wordStart
  /-- The end of a word. -/
  | wordEnd
  /-- No word before the place. -/
  | wordStartHalf
  /-- No word after the place. -/
  | wordEndHalf

namespace Boundary

/-- Whether a place between two characters is as asked; at the ends of the text
there is none. -/
def holds (before after : Option Char) : Boundary → Bool
  | textStart => before.isNone
  | textEnd => after.isNone
  | lineStart false => before.isNone || before == some '\n'
  | lineStart true =>
      before.isNone || before == some '\n' || (before == some '\r' && after != some '\n')
  | lineEnd false => after.isNone || after == some '\n'
  | lineEnd true =>
      after.isNone || after == some '\r' || (after == some '\n' && before != some '\r')
  | word => before.any CharSet.word != after.any CharSet.word
  | notWord => before.any CharSet.word == after.any CharSet.word
  | wordStart => !before.any CharSet.word && after.any CharSet.word
  | wordEnd => before.any CharSet.word && !after.any CharSet.word
  | wordStartHalf => !before.any CharSet.word
  | wordEndHalf => !after.any CharSet.word

end Boundary

/-- A pattern. -/
inductive Pattern where
  /-- Nothing. -/
  | empty
  /-- One character of a set. -/
  | one (set : CharSet)
  /-- Nothing, at a place that is as asked. -/
  | boundary (kind : Boundary)
  /-- One after the other. -/
  | seq (first second : Pattern)
  /-- One or the other. -/
  | either (first second : Pattern)
  /-- One over and over, with a least number of times and perhaps a most. -/
  | repeated (body : Pattern) (least : Nat) (most : Option Nat)

namespace Pattern

/-- The character before a place. -/
def charBefore (text : Array Char) : Nat → Option Char
  | 0 => none
  | place + 1 => text[place]?

/-- A step taken a number of times from some places. -/
def walk (step : List Nat → List Nat) : Nat → List Nat → List Nat
  | 0, places => places
  | _ + 1, [] => []
  | times + 1, place :: places => walk step times (step (place :: places))

/-- What is seen, with what the places at the front lead to by steps taken
together, in at most a number of rounds. -/
def spread (step : List Nat → List Nat) : Nat → List Nat → List Nat → List Nat
  | 0, _, seen => seen
  | rounds + 1, front, seen =>
      match distinct (front.filter fun place => !seen.contains place) with
      | [] => seen
      | place :: places =>
          spread step rounds (step (place :: places)) (seen ++ place :: places)

/-- The places where stretches that begin at one of the given places end. No
repetition has to be followed for more rounds than the text has places: a round
that consumes nothing can be left out or taken again without effect. -/
def ends (text : Array Char) : Pattern → List Nat → List Nat
  | empty, places => places
  | one set, places => (places.filter fun place => (text[place]?).any set).map (· + 1)
  | boundary kind, places =>
      places.filter fun place => kind.holds (charBefore text place) text[place]?
  | seq first second, places => second.ends text (first.ends text places)
  | either first second, places => distinct (first.ends text places ++ second.ends text places)
  | repeated body least most, places =>
      let required := walk (body.ends text) (min least (text.size + 1)) places
      let rounds := match most with
        | some most => min (most - least) text.size
        | none => text.size
      spread (body.ends text) (rounds + 1) required []

/-- Whether some stretch of a text is as the pattern asks. -/
def occursIn (pattern : Pattern) (text : String) : Bool :=
  let characters := text.toList.toArray
  !(pattern.ends characters (List.range (characters.size + 1))).isEmpty

end Pattern

end Chomsky
