import Chomsky.Text.Letter
import Chomsky.Text.Pattern.Bracket

/-!
# Patterns from texts

The text of a pattern is a choice between sequences, with repetitions of their
parts and groups in parentheses. Flags hold from where they are written to the
end of their group.

## What this module delivers

- `Pattern.ofText`, the pattern of a text or the fault of the text.
-/

set_option autoImplicit false

namespace Chomsky

namespace PatternReader

/-! ## Sequences -/

/-- The parts of a sequence that are read, the last one first. A change of flags
is no part and cannot be repeated, but it is there. -/
abbrev Parts := List (Option Pattern)

/-- The pattern of a sequence. -/
def Parts.pattern (parts : Parts) : Pattern :=
  parts.foldl (fun rest part =>
    match part with
    | some pattern => .seq pattern rest
    | none => rest) .empty

/-- The pattern of a choice, the last sequence first. -/
def choice (last : Parts) (earlier : List Pattern) : Pattern :=
  earlier.foldl (fun rest pattern => .either pattern rest) last.pattern

/-- The last part of a sequence and the parts before it. -/
def repeatable (parts : Parts) : PatternReader (Pattern × Parts) := do
  match parts with
  | some last :: earlier => return (last, earlier)
  | _ => refuse .nothingToRepeat (← here) (← here)

/-! ## Repetitions -/

/-- Passes over a question mark, which asks for short repetitions. -/
def skipLazy : PatternReader Unit := do
  if (← peek) == some '?' then skip 1

/-- Repeats the last part of a sequence as the mark that comes next says. -/
def readRepetition (parts : Parts) (least : Nat) (most : Option Nat) : PatternReader Parts := do
  let (last, earlier) ← repeatable parts
  skip 1
  skipLazy
  return some (.repeated last least most) :: earlier

/-- Reads decimal digits, each with the blanks after it. -/
def readDigits : Nat → List Char → PatternReader (List Char)
  | 0, read => return read.reverse
  | fuel + 1, read => do
      match ← peek with
      | some c =>
          if c.isDigit then
            advance
            readDigits fuel (c :: read)
          else return read.reverse
      | none => return read.reverse

/-- Passes over blanks, in every mode. -/
def skipRoom : PatternReader Unit := do
  skip ((← ahead).takeWhile isBlank).length

/-- The least number that is too large for a count. -/
def countBound : Nat := UInt32.size

/-- Reads a count, with blanks around it. What is wrong with the count is not
refused at once: braces without an end go before it. -/
def readCount : PatternReader (Except Fault Nat) := do
  skipRoom
  let start ← here
  let digits ← readDigits ((← ahead).length + 1) []
  let stop ← here
  skipRoom
  skipBlanks
  let value := digits.foldl (fun value c => 10 * value + (c.toNat - '0'.toNat)) 0
  return if digits.isEmpty then .error ⟨.missingCount, ⟨start, stop⟩, none⟩
    else if value < countBound then .ok value
    else .error ⟨.countTooLarge, ⟨start, stop⟩, none⟩

/-- Repeats the last part of a sequence as counts in braces say. -/
def readCounts (parts : Parts) : PatternReader Parts := do
  let (last, earlier) ← repeatable parts
  let start ← here
  let unclosed {α : Type} : PatternReader α := do refuse .unclosedCounts start (← here)
  advance
  if (← peek).isNone then unclosed
  let first ← readCount
  let (least, most) : Nat × Option Nat ← match ← peek with
    | none => unclosed
    | some ',' => do
        advance
        match ← peek with
        | none => unclosed
        | some '\x7d' => pure (← ofExcept first, none)
        | some _ => do
            let least ← ofExcept first
            let most ← ofExcept (← readCount)
            pure (least, some most)
    | some _ => do
        let count ← ofExcept first
        pure (count, some count)
  if (← peek) != some '\x7d' then unclosed
  advance
  skipLazy
  if most.any (· < least) then refuse .reversedCounts start (← here)
  return some (.repeated last least most) :: earlier

/-! ## Groups -/

/-- Whether a character can stand in the name of a group, at its start or later. -/
def isNameCharacter (first : Bool) (c : Char) : Bool :=
  c == '_' || isLetter c || (!first && (isNumber c || ".[]".toList.contains c))

/-- Reads the name of a group up to the angle bracket that ends it. -/
def readName (start : Nat) : Nat → List Char → PatternReader String
  | 0, read => return String.ofList read.reverse
  | fuel + 1, read => do
      match ← peek with
      | none => refuse .unclosedGroupName (← here) (← here)
      | some '>' => return String.ofList read.reverse
      | some c =>
          if isNameCharacter ((← here) == start) c then
            skip 1
            readName start fuel (c :: read)
          else refuse .badGroupName (← here) ((← here) + 1)

/-- Reads the name of a group, which no other group has. -/
def readGroupName : PatternReader Unit := do
  let start ← here
  let name ← readName start ((← ahead).length + 1) []
  let stop ← here
  skip 1
  if name.isEmpty then refuse .emptyGroupName start start
  match (← get).names.find? fun entry => entry.1 == name with
  | some (_, earlier) => refuseRepeated .repeatedGroupName ⟨start, stop⟩ earlier
  | none => modify fun s => { s with names := (name, ⟨start, stop⟩) :: s.names }

/-- The flags that are read, each with its place; a hyphen, after which flags are
turned off, is none of them. The last one comes first. -/
abbrev FlagItems := List (Option Flag × Nat)

/-- The modes with flags turned on or off. -/
def FlagItems.apply (items : FlagItems) (modes : Modes) : Modes :=
  (items.foldr (fun item (modes, value) =>
    match item.1 with
    | some flag => (modes.set flag value, value)
    | none => (modes, false)) (modes, true)).1

/-- Reads flags up to the colon or the parenthesis that ends them. -/
def readFlags : Nat → FlagItems → PatternReader FlagItems
  | 0, items => return items
  | fuel + 1, items => do
      let place ← here
      match ← peek with
      | none => refuse .unfinishedFlags place place
      | some c =>
          if c == ':' || c == ')' then
            match items with
            | (none, hyphen) :: _ => refuse .danglingNegation hyphen (hyphen + 1)
            | _ => return items
          else
            let item ← if c == '-' then pure none else
              match Flag.ofLetter? c with
              | some flag => pure (some flag)
              | none => refuse .unknownFlag place (place + 1)
            match items.find? fun entry => entry.1 == item with
            | some (_, earlier) =>
                refuseRepeated (if item.isNone then .repeatedNegation else .repeatedFlag)
                  ⟨place, place + 1⟩ ⟨earlier, earlier + 1⟩
            | none =>
                skip 1
                readFlags fuel ((item, place) :: items)

/-- What an opening parenthesis turns out to begin. -/
inductive Opening where
  /-- A group. -/
  | group
  /-- A change of flags, which is read to its end. -/
  | flags

/-- What marks a group that looks ahead or behind. -/
def lookMarks : List (List Char) := [['?', '='], ['?', '!'], ['?', '<', '='], ['?', '<', '!']]

/-- Reads an opening parenthesis with the name or the flags after it. -/
def readOpening : PatternReader Opening := do
  let start ← here
  advance
  let inside ← here
  let text ← ahead
  match lookMarks.find? fun mark => mark.isPrefixOf text with
  | some mark => refuse .lookAround start (inside + mark.length)
  | none =>
      match text with
      | '?' :: 'P' :: '<' :: _ =>
          skip 3
          readGroupName
          return .group
      | '?' :: '<' :: _ =>
          skip 2
          readGroupName
          return .group
      | ['?'] => refuse .unclosedGroup start (start + 1)
      | '?' :: rest =>
          skip 1
          let items ← readFlags (rest.length + 1) []
          let ended := (← peek) == some ')'
          skip 1
          if ended && items.isEmpty then refuse .nothingToRepeat inside inside
          setModes (items.apply (← modes))
          return if ended then .flags else .group
      | _ => return .group

/-! ## Whole patterns -/

/-- The pattern of an atom outside of brackets. -/
def patternOf : PlacedAtom → PatternReader Pattern
  | (.char c asByte, stretch) => do
      let modes ← modes
      if asByte && !modes.wide && decide (128 ≤ c.toNat) then object .badEncoding stretch
      let set := CharSet.single c
      return .one (if modes.caseless then set.caseless modes.wide else set)
  | (.set members, _) => return .one members
  | (.boundary kind, _) => return .boundary kind

/-- The pattern of a dot. -/
def readDot : PatternReader Pattern := do
  let start ← here
  skip 1
  let modes ← modes
  if !modes.wide then object .badEncoding ⟨start, start + 1⟩
  return .one fun c =>
    modes.dotAll || (c != '\n' && (!modes.returns || c != '\r'))

/-- The pattern of a mark for starts, or of one for ends. -/
def readLineMark (start : Bool) : PatternReader Pattern := do
  skip 1
  let modes ← modes
  return .boundary <|
    if modes.byLine then
      if start then .lineStart modes.returns else .lineEnd modes.returns
    else if start then .textStart
    else .textEnd

/-- Reads a choice up to a closing parenthesis or the end. `earlier` are the
sequences read so far, and `parts` the parts of the next one. Each round reads a
character, so the number of characters is enough for `fuel`. -/
def readChoice : Nat → List Pattern → Parts → PatternReader Pattern
  | 0, earlier, parts => return choice parts earlier
  | fuel + 1, earlier, parts => do
      skipBlanks
      let add (pattern : Pattern) : PatternReader Pattern :=
        readChoice fuel earlier (some pattern :: parts)
      match ← peek with
      | none => return choice parts earlier
      | some ')' => return choice parts earlier
      | some '|' =>
          skip 1
          readChoice fuel (parts.pattern :: earlier) []
      | some '(' =>
          let start ← here
          let outer ← modes
          match ← readOpening with
          | .flags => readChoice fuel earlier (none :: parts)
          | .group =>
              let body ← readChoice fuel [] []
              if (← peek).isNone then refuse .unclosedGroup start (start + 1)
              setModes outer
              skip 1
              add body
      | some '?' => readChoice fuel earlier (← readRepetition parts 0 (some 1))
      | some '*' => readChoice fuel earlier (← readRepetition parts 0 none)
      | some '+' => readChoice fuel earlier (← readRepetition parts 1 none)
      | some '\x7b' => readChoice fuel earlier (← readCounts parts)
      | some '[' => add (.one (← readBracket))
      | some '.' => add (← readDot)
      | some '^' => add (← readLineMark true)
      | some '$' => add (← readLineMark false)
      | some _ => add (← patternOf (← readAtom))

/-- Reads a whole pattern. -/
def readPattern : PatternReader Pattern := do
  let pattern ← readChoice ((← ahead).length + 1) [] []
  match ← peek with
  | none => return pattern
  | some _ => refuse .unopenedGroup (← here) ((← here) + 1)

end PatternReader

/-- The pattern of a text. -/
def Pattern.ofText (text : String) : Except Fault Pattern :=
  match PatternReader.readPattern (Reading.ofText text) with
  | .error fault => .error fault
  | .ok (pattern, state) =>
      match state.objection with
      | some fault => .error fault
      | none => .ok pattern

end Chomsky
