import Chomsky.Text.Pattern.Basic
import Chomsky.Text.Pattern.Property
import Chomsky.Text.Pattern.Reading

/-!
# Escapes in patterns

A backslash makes a mark stand for itself, and gives letters a meaning: control
characters, code points, sets and boundaries.

## What this module delivers

- `Atom`, what a character or an escape stands for.
- `PatternReader.readEscape` and `PatternReader.readAtom`.
-/

set_option autoImplicit false

namespace Chomsky

/-- What a character or an escape of a pattern stands for. -/
inductive Atom where
  /-- A character, which may be written as a byte. -/
  | char (value : Char) (asByte : Bool)
  /-- A character of a set. -/
  | set (members : CharSet)
  /-- A boundary. -/
  | boundary (kind : Boundary)

/-- An atom with the stretch where it is written. -/
abbrev PlacedAtom := Atom × Stretch

namespace PatternReader

/-! ## Code points -/

/-- The value of a hexadecimal digit. -/
def hexDigit? (c : Char) : Option Nat :=
  if '0' ≤ c ∧ c ≤ '9' then some (c.toNat - '0'.toNat)
  else if 'a' ≤ c ∧ c ≤ 'f' then some (c.toNat - 'a'.toNat + 10)
  else if 'A' ≤ c ∧ c ≤ 'F' then some (c.toNat - 'A'.toNat + 10)
  else none

/-- The value of the digit that comes next. -/
def readHexDigit (c : Char) : PatternReader Nat := do
  match hexDigit? c with
  | some value => return value
  | none => refuse .badCodePointDigit (← here) ((← here) + 1)

/-- The character of a code point that is written between two places. -/
def charOf (code start stop : Nat) : PatternReader Char := do
  if code.isValidChar then return Char.ofNat code
  else refuse .badCodePoint start stop

/-- Reads a number of hexadecimal digits and gives their value, continuing that
of earlier digits. -/
def readHexDigits : Nat → Nat → PatternReader Nat
  | 0, value => return value
  | count + 1, value => do
      match ← peek with
      | none => refuse .unfinishedEscape (← here) (← here)
      | some c =>
          let digit ← readHexDigit c
          advance
          readHexDigits count (16 * value + digit)

/-- Reads hexadecimal digits up to a closing brace and gives their value with
the number of them. The brace that opened them is at `brace`. -/
def readBracedDigits (brace : Nat) : Nat → Nat → Nat → PatternReader (Nat × Nat)
  | 0, value, count => return (value, count)
  | fuel + 1, value, count => do
      match ← peek with
      | none => refuse .unfinishedEscape brace (← here)
      | some '}' => return (value, count)
      | some c =>
          let digit ← readHexDigit c
          advance
          readBracedDigits brace fuel (16 * value + digit) (count + 1)

/-- Reads a code point after the letter that announces it, with a number of
digits or between braces. -/
def readCodePoint (digits : Nat) : PatternReader Atom := do
  advance
  let start ← here
  match ← peek with
  | none => refuse .unfinishedEscape start start
  | some '{' =>
      advance
      let (code, count) ← readBracedDigits start ((← ahead).length + 1) 0 0
      let stop ← here
      advance
      if count = 0 then refuse .missingCodePoint start (← here)
      return .char (← charOf code (start + 1) stop) false
  | some _ =>
      let code ← readHexDigits digits 0
      return .char (← charOf code start (← here)) (digits = 2)

/-! ## Properties -/

/-- Where a text is first found in another: what is before it and after it. -/
def splitFirst? (sought : List Char) : List Char → Option (List Char × List Char)
  | [] => none
  | c :: rest =>
      if sought.isPrefixOf (c :: rest) then some ([], (c :: rest).drop sought.length)
      else (splitFirst? sought rest).map fun (before, after) => (c :: before, after)

/-- The set of a property that is given as a name, or as a name and a value. -/
def propertySet (text : List Char) : Except PropertyGap CharSet :=
  match splitFirst? ['!', '='] text, splitFirst? [':'] text, splitFirst? ['='] text with
  | some (name, value), _, _ =>
      CharSet.ofPropertyValue (String.ofList name) (String.ofList value)
  | none, some (name, value), _ =>
      CharSet.ofPropertyValue (String.ofList name) (String.ofList value)
  | none, none, some (name, value) =>
      CharSet.ofPropertyValue (String.ofList name) (String.ofList value)
  | none, none, none => CharSet.ofProperty (String.ofList text)

/-- Reads the characters up to a closing brace. -/
def readBraced : Nat → List Char → PatternReader (List Char)
  | 0, read => return read.reverse
  | fuel + 1, read => do
      match ← peek with
      | none => refuse .unfinishedEscape (← here) (← here)
      | some '}' => return read.reverse
      | some c =>
          advance
          readBraced fuel (c :: read)

/-- Reads what names a property: one letter, or a text in braces. -/
def readPropertyName : PatternReader (List Char) := do
  match ← peek with
  | none => refuse .unfinishedEscape (← here) (← here)
  | some '{' =>
      advance
      let name ← readBraced ((← ahead).length + 1) []
      skip 1
      return name
  | some '\\' => refuse .badPropertyName (← here) ((← here) + 1)
  | some letter =>
      advance
      return [letter]

/-- Reads the set of a property after the letter that announces it. -/
def readProperty (start : Nat) (negated : Bool) : PatternReader Atom := do
  advance
  let name ← readPropertyName
  let stretch : Stretch := ⟨start, ← here⟩
  let modes ← modes
  if modes.wide then
    match propertySet name with
    | .ok set =>
        let set := if modes.caseless then set.caseless true else set
        return .set (set.polar negated)
    | .error gap =>
        object (match gap with
          | .property => .unknownProperty
          | .value => .unknownPropertyValue) stretch
        return .set .nothing
  else
    object .bytesOnly stretch
    return .set .nothing

/-! ## Sets and boundaries -/

/-- Reads the letter of a set. The other characters than those of a set cannot
be told from parts of characters when patterns are about bytes. -/
def readNamedSet (start : Nat) (set : CharSet) (negated : Bool) : PatternReader Atom := do
  skip 1
  if negated && !(← modes).wide then object .badEncoding ⟨start, ← here⟩
  return .set (set.polar negated)

/-- Whether a character can stand in the name of a boundary. -/
def isBoundaryLetter (c : Char) : Bool := c.isAlpha || c == '-'

/-- Reads the letters of the name of a boundary. -/
def readBoundaryLetters : Nat → List Char → PatternReader String
  | 0, read => return String.ofList read.reverse
  | fuel + 1, read => do
      match ← peek with
      | none => return String.ofList read.reverse
      | some c =>
          if isBoundaryLetter c then
            advance
            readBoundaryLetters fuel (c :: read)
          else return String.ofList read.reverse

/-- Reads the name of a boundary in braces, if one comes next; anything else in
braces is left to be read as counts. The escape began at `start`. -/
def readBoundaryName (start : Nat) : PatternReader Boundary := do
  let state ← get
  match state.rest with
  | '{' :: _ =>
      let brace ← here
      advance
      let inside ← here
      match ← peek with
      | none => refuse .unclosedBoundaryOrCounts start inside
      | some c =>
          if isBoundaryLetter c then
            let name ← readBoundaryLetters ((← ahead).length + 1) []
            let stop ← here
            if (← peek) != some '}' then refuse .unclosedBoundary brace stop
            skip 1
            match name with
            | "start" => return .wordStart
            | "end" => return .wordEnd
            | "start-half" => return .wordStartHalf
            | "end-half" => return .wordEndHalf
            | _ => refuse .unknownBoundary inside stop
          else
            set state
            return .word
  | _ => return .word

/-! ## Escapes -/

/-- Whether a character stands for itself after a backslash: every character of
ASCII does but letters, digits and angle brackets. -/
def standsForItself (c : Char) : Bool :=
  decide (c.toNat < 128) && !c.isAlphanum && c != '<' && c != '>'

/-- The atom of an escaped character that nothing else belongs to. -/
def plainEscape? (c : Char) : Option Atom :=
  if standsForItself c then some (.char c false)
  else
    match c with
    | 'a' => some (.char '\x07' false)
    | 'f' => some (.char '\x0c' false)
    | 't' => some (.char '\t' false)
    | 'n' => some (.char '\n' false)
    | 'r' => some (.char '\r' false)
    | 'v' => some (.char '\x0b' false)
    | 'A' => some (.boundary .textStart)
    | 'z' => some (.boundary .textEnd)
    | 'B' => some (.boundary .notWord)
    | '<' => some (.boundary .wordStart)
    | '>' => some (.boundary .wordEnd)
    | _ => none

/-- Reads an escape. -/
def readEscape : PatternReader PlacedAtom := do
  let start ← here
  skip 1
  let atom ← match ← peek with
    | none => refuse .unfinishedEscape start (← here)
    | some 'x' => readCodePoint 2
    | some 'u' => readCodePoint 4
    | some 'U' => readCodePoint 8
    | some 'p' => readProperty start false
    | some 'P' => readProperty start true
    | some 'd' => readNamedSet start .digit false
    | some 'D' => readNamedSet start .digit true
    | some 's' => readNamedSet start .blank false
    | some 'S' => readNamedSet start .blank true
    | some 'w' => readNamedSet start .word false
    | some 'W' => readNamedSet start .word true
    | some 'b' => do
        skip 1
        return (.boundary (← readBoundaryName start), ⟨start, ← here⟩)
    | some c => do
        if c.isDigit then refuse .backreference start ((← here) + 1)
        skip 1
        match plainEscape? c with
        | some atom => pure atom
        | none => refuse .unknownEscape start (← here)
  return (atom, ⟨start, ← here⟩)

/-- Reads an escape or a character that stands for itself. -/
def readAtom : PatternReader PlacedAtom := do
  let start ← here
  match ← peek with
  | none => refuse .unfinishedEscape start start
  | some '\\' => readEscape
  | some c =>
      skip 1
      return (.char c false, ⟨start, start + 1⟩)

end PatternReader

end Chomsky
